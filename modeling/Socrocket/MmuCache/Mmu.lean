/- Socrocket/MmuCache/Mmu
   digest: The page walk, the translation buffers and the adaptor of the memory management unit. -/

import Socrocket.Base.OrderedMap
import Socrocket.Core.SrRegister
import Socrocket.MmuCache.VectorCache

set_option autoImplicit false
set_option relaxedAutoImplicit false

namespace Socrocket.MmuCache

open Socrocket.Base
open Socrocket.Base.ByteMemory
open Socrocket.Core.SrRegister

/-- One transfer of the bus interface. -/
structure Transfer where
  isWrite : Bool
  request : Request

/-- The bus interface: the memory behind it, the transfers so far and the exceptions sent to the
processor. -/
structure AhbMemory where
  memory : Memory 32
  transfers : List Transfer
  exceptions : List ℕ

/-- The bits of the memory areas that are cacheable, and the slaves that declare themselves so. -/
structure Cacheability where
  mCached : BitVec 32
  extension : BitVec 32 → Bool

namespace AhbMemory

variable (p : Cacheability)

/-- A blocking read. -/
def memRead (b : AhbMemory) (r : Request) (data : Buffer) (reply : Reply) : ReadResult AhbMemory :=
  let cacheable := if r.isDbg then reply.cacheable else p.extension r.address
  let cacheableLocal := if r.isDbg ∨ p.mCached = 0 then true
    else bitGet p.mCached (r.address >>> 28).toNat
  { state := { b with transfers := b.transfers ++ [⟨false, r⟩] }
    data := memcpy data (bytesAt b.memory r.address) r.len.toNat
    reply := { reply with cacheable := cacheable }
    isCacheable := cacheableLocal && cacheable }

/-- A posted write. -/
def memWrite (b : AhbMemory) (r : Request) (data : Buffer) (reply : Reply) : AhbMemory × Reply :=
  ({ b with
    memory := writeBytes b.memory r.address data r.len.toNat
    transfers := b.transfers ++ [⟨true, r⟩] }, reply)

/-- Send an exception to the processor. -/
def triggerException (b : AhbMemory) (exception : ℕ) : AhbMemory :=
  { b with exceptions := b.exceptions ++ [exception] }

end AhbMemory

def INSTR_ACCESS_EXC : ℕ := 5
def DATA_ACCESS_EXC : ℕ := 19

/-- The widths of the three table indices and of the virtual page number. -/
structure Widths where
  mIdx1 : ℕ
  mIdx2 : ℕ
  mIdx3 : ℕ
  mVtagWidth : ℕ

/-- The widths for the page sizes 4, 8, 16 and 32 kB. -/
def widths : Fin 4 → Widths
  | 0 => ⟨8, 6, 6, 20⟩
  | 1 => ⟨7, 6, 6, 19⟩
  | 2 => ⟨6, 6, 6, 18⟩
  | 3 => ⟨4, 7, 6, 17⟩

/-- Fault types by access type and access permissions. -/
def accessTable : List (List (BitVec 32)) :=
  [[0, 0, 0, 0, 2, 0, 3, 3],
   [0, 0, 0, 0, 2, 0, 0, 0],
   [2, 2, 0, 0, 0, 2, 3, 3],
   [2, 2, 0, 0, 0, 2, 0, 0],
   [2, 0, 2, 0, 2, 2, 3, 3],
   [2, 0, 2, 0, 2, 0, 2, 0],
   [2, 2, 2, 0, 2, 2, 3, 3],
   [2, 2, 2, 0, 2, 2, 2, 0]]

/-- The fault type of an access, zero when it is permitted. -/
def accessError (accessIndex perms : BitVec 32) : BitVec 32 :=
  (accessTable.getD accessIndex.toNat []).getD perms.toNat 0

/-- An entry of a translation buffer. -/
structure PteContext where
  tlbNo : ℕ
  context : BitVec 32
  pte : BitVec 32
  lru : BitVec 64
  pageSize : BitVec 64

/-- Parameters of the unit: the page size, the replacement strategy and the size of the buffer. -/
structure MmuConfig where
  mmupgsz : Fin 4
  tlbRep : ℕ
  tlbnum : ℕ
  powMon : Bool
  cacheability : Cacheability
  tlbnum_range : 2 ≤ tlbnum ∧ tlbnum ≤ 32

/-- A translation buffer: its entries by virtual page number. -/
abbrev Tlb := OrderedMap (BitVec 32) PteContext (Compare.word 32)

/-- The registers of the unit and one translation buffer with its write counter. -/
structure Mmu where
  controlReg : BitVec 32
  contextTablePointerReg : BitVec 32
  contextReg : BitVec 32
  faultStatusReg : BitVec 32
  faultAddressReg : BitVec 32
  tlb : Tlb
  mPseudoRand : ℕ
  dynTlbWrites : BitVec 64

/-- Types of table entries, by their two lowest bits. -/
inductive EntryType where
  | invalid
  | ptd
  | pte
  | reserved
deriving DecidableEq

def entryType (pde : BitVec 32) : EntryType :=
  match (pde &&& 0x3).toNat with
  | 0 => .invalid
  | 1 => .ptd
  | 2 => .pte
  | _ => .reserved

/-- The address of an entry in the table a descriptor points to. -/
def entryAddress (pde idx : BitVec 32) : BitVec 32 := ((pde &&& ~~~0x3) <<< 4) + (idx <<< 2)

/-- The big endian word at an address. -/
def readWord (mem : Memory 32) (a : BitVec 32) : BitVec 32 :=
  mem a ++ mem (a + 1) ++ mem (a + 2) ++ mem (a + 3)

/-- Read a table entry over the bus. -/
def readPde (p : Cacheability) (b : AhbMemory) (isDbg : Bool) (pdePtr : BitVec 32) :
    AhbMemory × BitVec 32 :=
  let result := b.memRead p ⟨pdePtr, 0x8, 4, isDbg, false⟩ (fun _ => 0) ⟨0, false⟩
  (result.state, result.data 0 ++ result.data 1 ++ result.data 2 ++ result.data 3)

/-- What a page walk returns, and what it writes through its pointers. -/
structure PageWalk where
  bus : AhbMemory
  errorCode : BitVec 32
  paddr : BitVec 64
  accessIndex : BitVec 32
  pageSize : BitVec 64
  pde : BitVec 32

/-- The address no access is translated to. -/
def noPaddr : BitVec 64 := 0xffffffffffff0000

/-- The physical address of a page table entry and an offset. -/
def composePaddr (pde : BitVec 32) (vaddr : BitVec 32) (pageSize : BitVec 64) : BitVec 64 :=
  (((pde &&& ~~~0xFF) <<< 4).setWidth 64 ||| (vaddr.setWidth 64 &&& (pageSize - 1#64))) &&&
    ((1#64 <<< 36) - 1#64)

variable (cfg : MmuConfig)

/-- User accesses have ASI `8` or `A`, instruction accesses `8` or `9`. -/
def accessIndexOf (asi : BitVec 32) (isWrite : Bool) : BitVec 32 :=
  (BitVec.ofBool isWrite).setWidth 32 <<< 2 |||
    (BitVec.ofBool (asi &&& 0x2 = 0)).setWidth 32 <<< 1 |||
    (BitVec.ofBool (asi &&& 0x1 ≠ 0)).setWidth 32

/-- The walk ends at a page table entry: check the permissions, set the modified and referenced bits
and compose the address. -/
def checkAccess (bus : AhbMemory) (accessIndex pde vaddr : BitVec 32) (pageSize : BitVec 64)
    (isWrite : Bool) : PageWalk :=
  let errorCode := accessError accessIndex ((pde >>> 2) &&& 0x7) <<< 2
  let marked := if errorCode ≠ 0 then pde else
    let modified := if isWrite then pde ||| 1#32 <<< 6 else pde
    if isWrite ∨ modified &&& 1#32 <<< 5 = 0 then modified ||| 1#32 <<< 5 else modified
  ⟨bus, errorCode, composePaddr marked vaddr pageSize, accessIndex, pageSize, pde⟩

/-- Walk the tables for an address. -/
def getPhysicalAddress (m : Mmu) (b : AhbMemory) (vaddr asi : BitVec 32) (isDbg isWrite : Bool) :
    PageWalk :=
  let vpn := vaddr >>> (32 - (widths cfg.mmupgsz).mVtagWidth)
  let idx1 := (vpn >>> 12) &&& 0xff
  let idx2 := (vpn >>> 6) &&& 0x3f
  let idx3 := vpn &&& 0x3f
  let accessIndex := accessIndexOf asi isWrite
  let (b, pde) := readPde cfg.cacheability b isDbg
    ((m.contextTablePointerReg <<< 4) + (m.contextReg <<< 2))
  match entryType pde with
  | .invalid => ⟨b, 1#32 <<< 2, noPaddr, accessIndex, 0, pde⟩
  | .pte => ⟨b, 4#32 <<< 2, noPaddr, accessIndex, 0, pde⟩
  | .reserved => ⟨b, 4#32 <<< 2, noPaddr, accessIndex, 0, pde⟩
  | .ptd =>
    let (b, pde) := readPde cfg.cacheability b isDbg (entryAddress pde idx1)
    match entryType pde with
    | .invalid => ⟨b, 1#32 <<< 8 ||| 1#32 <<< 2, noPaddr, accessIndex, 0, pde⟩
    | .reserved => ⟨b, 1#32 <<< 8 ||| 4#32 <<< 2, noPaddr, accessIndex, 0, pde⟩
    | .pte => checkAccess b accessIndex pde vaddr 0x1000000 isWrite
    | .ptd =>
      let (b, pde) := readPde cfg.cacheability b isDbg (entryAddress pde idx2)
      match entryType pde with
      | .invalid => ⟨b, 2#32 <<< 8 ||| 1#32 <<< 2, noPaddr, accessIndex, 0, pde⟩
      | .reserved => ⟨b, 2#32 <<< 8 ||| 4#32 <<< 2, noPaddr, accessIndex, 0, pde⟩
      | .pte => checkAccess b accessIndex pde vaddr 0x40000 isWrite
      | .ptd =>
        let (b, pde) := readPde cfg.cacheability b isDbg (entryAddress pde idx3)
        match entryType pde with
        | .invalid => ⟨b, 3#32 <<< 8 ||| 1#32 <<< 2, noPaddr, accessIndex, 0, pde⟩
        | .ptd => ⟨b, 3#32 <<< 8 ||| 4#32 <<< 2, noPaddr, accessIndex, 0, pde⟩
        | .reserved => ⟨b, 3#32 <<< 8 ||| 4#32 <<< 2, noPaddr, accessIndex, 0, pde⟩
        | .pte => checkAccess b accessIndex pde vaddr 0x1000 isWrite

/-- The search for the lowest age: the entry selected so far and its age. -/
def minLru (entries : List (BitVec 32 × PteContext))
    (sel : Option (BitVec 32 × PteContext) × BitVec 64) :
    Option (BitVec 32 × PteContext) × BitVec 64 :=
  entries.foldl (fun sel e => if e.2.lru < sel.2 then (some e, e.2.lru) else sel) sel

/-- The virtual page number of an address. -/
def vpnOf (addr : BitVec 32) : BitVec 32 := addr >>> (32 - (widths cfg.mmupgsz).mVtagWidth)

variable (tlbSize : ℕ)

/-- Remove an entry of a full buffer and return its number. The counter of the random strategy is
never incremented. -/
def tlbRemove (m : Mmu) : Mmu × ℕ :=
  if cfg.tlbRep = 0 then
    match (minLru m.tlb.entries (none, 0xffffffffffffffff)).1 with
    | some e => ({ m with tlb := m.tlb.erase e.1 }, e.2.tlbNo)
    | none => (m, 0)
  else
    let select := m.mPseudoRand % (tlbSize + 1)
    match m.tlb.entries.head? with
    | some e => (if select = 0 then { m with tlb := m.tlb.erase e.1 } else m, select)
    | none => (m, select)

/-- What a lookup leaves behind. It failed unless it returned zero. -/
structure Lookup where
  mmu : Mmu
  bus : AhbMemory
  cacheable : Bool
  failed : Bool
  paddr : BitVec 64

/-- The fault status and address registers after a fault. -/
def recordFault (m : Mmu) (addr asi accessIndex errorCode : BitVec 32) : Mmu :=
  let status := if m.faultStatusReg = 0 then 1 else m.faultStatusReg
  let status := status ||| accessIndex <<< 5 ||| errorCode
  let status := if asi &&& 0x2 = 0 then status else status ||| 1#32 <<< 1
  { m with faultStatusReg := status, faultAddressReg := addr }

/-- The fault is sent to the processor: the no fault bit is clear, or the access has ASI `9`. -/
def Trapped (m : Mmu) (asi : BitVec 32) : Prop :=
  m.controlReg &&& 0x2 = 0 ∨ (m.controlReg &&& 0x2 ≠ 0 ∧ asi = 0x9)

instance (m : Mmu) (asi : BitVec 32) : Decidable (Trapped m asi) :=
  inferInstanceAs (Decidable (_ ∨ _))

/-- The second half of the lookup: a walk that ended at a page table entry is entered in the
buffer. -/
def enterPte (m : Mmu) (walk : PageWalk) (addr : BitVec 32) (cacheable : Bool) : Lookup :=
  match entryType walk.pde with
  | .pte =>
    let (m, tlbNo) := if m.tlb.entries.length = tlbSize then tlbRemove cfg tlbSize m
      else (m, m.tlb.entries.length)
    { mmu := { m with
        tlb := m.tlb.set (vpnOf cfg addr)
          ⟨tlbNo, m.contextReg, walk.pde, 0xfffffffffffffffe, walk.pageSize⟩
        dynTlbWrites := if cfg.powMon then m.dynTlbWrites + 1 else m.dynTlbWrites }
      bus := walk.bus
      cacheable := walk.pde &&& 1#32 <<< 7 ≠ 0
      failed := false
      paddr := composePaddr walk.pde addr walk.pageSize }
  | _ => ⟨m, walk.bus, cacheable, true, walk.paddr⟩

/-- Look up the physical address of an access in a buffer of a size. -/
def tlbLookup (m : Mmu) (b : AhbMemory) (addr asi : BitVec 32) (isDbg isWrite cacheable : Bool) :
    Lookup :=
  let walk := getPhysicalAddress cfg m b addr asi isDbg isWrite
  if walk.errorCode ≠ 0 then
    let m := recordFault m addr asi walk.accessIndex walk.errorCode
    if Trapped m asi then
      let exception := if asi &&& 0x2 = 0 then INSTR_ACCESS_EXC else DATA_ACCESS_EXC
      ⟨m, walk.bus.triggerException exception, cacheable, true, walk.paddr⟩
    else enterPte cfg tlbSize m walk addr cacheable
  else enterPte cfg tlbSize m walk addr cacheable

/-- The unit and the bus interface behind it. -/
structure MmuSystem where
  mmu : Mmu
  bus : AhbMemory

/-- The adaptor between a cache and the bus interface. It calls the write of the bus interface with
the flags for cacheability and locking exchanged. -/
def tlbAdaptor : MemIf MmuSystem where
  memRead s r data reply :=
    if s.mmu.controlReg &&& 0x1 ≠ 0 then
      let found := tlbLookup cfg cfg.tlbnum s.mmu s.bus r.address r.asi r.isDbg false reply.cacheable
      let reply := { reply with cacheable := found.cacheable }
      if found.failed then ⟨⟨found.mmu, found.bus⟩, data, reply, false⟩
      else
        let result := found.bus.memRead cfg.cacheability
          { r with address := found.paddr.setWidth 32 } data reply
        ⟨⟨found.mmu, result.state⟩, result.data, result.reply, result.isCacheable⟩
    else
      let result := s.bus.memRead cfg.cacheability r data reply
      ⟨⟨s.mmu, result.state⟩, result.data, result.reply, result.isCacheable⟩
  memWrite s r data reply :=
    if s.mmu.controlReg &&& 0x1 ≠ 0 then
      let found := tlbLookup cfg cfg.tlbnum s.mmu s.bus r.address r.asi r.isDbg true reply.cacheable
      let reply := { reply with cacheable := found.cacheable }
      if found.failed then (⟨found.mmu, found.bus⟩, reply)
      else
        let result := found.bus.memWrite
          { r with address := found.paddr.setWidth 32, isLock := found.cacheable } data
          { reply with cacheable := r.isLock }
        (⟨found.mmu, result.1⟩, reply)
    else
      let result := s.bus.memWrite { r with isLock := reply.cacheable } data
        { reply with cacheable := r.isLock }
      (⟨s.mmu, result.1⟩, reply)

end Socrocket.MmuCache
