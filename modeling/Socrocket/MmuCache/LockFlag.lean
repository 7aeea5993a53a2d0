/- Socrocket/MmuCache/LockFlag
   digest: The way of a data access to the bus: what the caches, the translation and the bus interface
   make of the flags for locking and cacheability. -/

import Socrocket.MmuCache.ExecData
import Socrocket.MmuCache.Protection
import Socrocket.MmuCache.TlbSlots
import Socrocket.MmuCache.WriteThrough

set_option autoImplicit false
set_option relaxedAutoImplicit false

namespace Socrocket.MmuCache

open Socrocket.Base.ByteMemory
open Socrocket.Base.TableWalk

/-- The data side of the controller as it was constructed. -/
structure DataSide where
  generics : CacheGenerics
  dcache : Config
  mmu : MmuConfig

/-- The state of the data side: its cache, the control register, and what is behind the cache. -/
structure DataState where
  dcache : VectorCache
  ccr : BitVec 32
  system : MmuSystem

/-- The bus interface of the controller, without a memory management unit in front of it. -/
def busInterface (p : Cacheability) : MemIf MmuSystem where
  memRead s r data reply :=
    let result := s.bus.memRead p r data reply
    ⟨⟨s.mmu, result.state⟩, result.data, result.reply, result.isCacheable⟩
  memWrite s r data reply :=
    let result := s.bus.memWrite r data reply
    (⟨s.mmu, result.1⟩, result.2)

/-- An access that leaves the cache: through the adaptor of the translation buffer or not, a store or
not, with the parameters of the memory interface. -/
structure Handed where
  translated : Bool
  isWrite : Bool
  request : Request

namespace DataSide

variable (d : DataSide)

/-- The parameters of a data access at the memory interface. -/
def parameters (r : DataRequest) : Request := ⟨r.addr, r.asi, r.len, r.isDbg, r.lock⟩

/-- What a call of the decoder hands on. A cache that is absent hands on everything. -/
def handed (s : DataState) (r : DataRequest) : ComponentCall → Option Handed
  | .cacheRead _ =>
    if d.generics.dcen = 1 then
      match VectorCache.memReadLookup d.dcache s.ccr s.dcache (parameters r) with
      | .hit _ => none
      | .refill _ ahbAddress ahbLen =>
        some ⟨d.generics.mmuEn, false, { parameters r with address := ahbAddress, len := ahbLen }⟩
      | .bypass => some ⟨d.generics.mmuEn, false, parameters r⟩
    else some ⟨d.generics.mmuEn, false, parameters r⟩
  | .cacheWrite _ => some ⟨d.generics.mmuEn, true, parameters r⟩
  | .memRead => some ⟨false, false, parameters r⟩
  | .memWrite => some ⟨false, true, parameters r⟩
  | _ => none

/-- The component that an access is handed to. -/
def interface (translated : Bool) : MemIf MmuSystem :=
  if translated then tlbAdaptor d.mmu else busInterface d.mmu.cacheability

/-- Perform an access that leaves the cache. -/
def issue (s : MmuSystem) (h : Handed) (data : Buffer) (reply : Reply) : MmuSystem × Reply :=
  if h.isWrite then (d.interface h.translated).memWrite s h.request data reply
  else
    let result := (d.interface h.translated).memRead s h.request data reply
    (result.state, result.reply)

/-- What a call leaves of the system behind the cache, and of the parameters passed by reference. -/
def perform (s : DataState) (r : DataRequest) (data : Buffer) (reply : Reply) (call : ComponentCall) :
    MmuSystem × Reply :=
  match d.handed s r call with
  | none => (s.system, reply)
  | some h => d.issue s.system h data reply

/-- The lookup of an access that is translated. -/
def lookup (s : MmuSystem) (h : Handed) (reply : Reply) : Lookup :=
  tlbLookup d.mmu d.mmu.tlbnum s.mmu s.bus h.request.address h.request.asi h.request.isDbg h.isWrite
    reply.cacheable

/-- The memory management unit translates the access. -/
def Translating (s : MmuSystem) (h : Handed) : Prop :=
  h.translated = true ∧ s.mmu.controlReg &&& 0x1 ≠ 0

instance (s : MmuSystem) (h : Handed) : Decidable (Translating s h) :=
  inferInstanceAs (Decidable (_ ∧ _))

/-- The reads of the page tables for an access. -/
def tableReads (s : MmuSystem) (h : Handed) : List Transfer :=
  if Translating s h then
    (sourceWalk d.mmu s.mmu s.bus.memory h.request.address).trace.map (tableRead h.request.isDbg)
  else []

/-- The address at which an access reaches the bus. -/
def busAddress (s : MmuSystem) (h : Handed) (reply : Reply) : BitVec 32 :=
  if Translating s h then (d.lookup s h reply).paddr.setWidth 32 else h.request.address

/-- The cacheability of an access: that of the addressed slave after a load of the processor, else that
of the page, else the one it had. -/
def cacheability (s : MmuSystem) (h : Handed) (reply : Reply) : Bool :=
  if Translating s h ∧ (d.lookup s h reply).failed = true then (d.lookup s h reply).cacheable
  else if h.isWrite = false ∧ h.request.isDbg = false then
    d.mmu.cacheability.extension (d.busAddress s h reply)
  else if Translating s h then (d.lookup s h reply).cacheable
  else reply.cacheable

/-- An access that leaves the cache keeps its flags: behind the reads of the page tables, which are not
locked, its own transfers on the bus carry the lock that was asked for, and the flag for cacheability
comes back from the component that determines it. -/
structure KeepsFlags (s : MmuSystem) (lock : Bool) (h : Handed) (data : Buffer) (reply : Reply) :
    Prop where
  tables : ∀ t ∈ d.tableReads s h, t.request.isLock = false
  own : ∃ own, (d.issue s h data reply).1.bus.transfers =
      s.bus.transfers ++ (d.tableReads s h ++ own) ∧
    ∀ t ∈ own, t.request.isDbg = false → t.request.isLock = lock
  cacheable : (d.issue s h data reply).2.cacheable = d.cacheability s h reply

/-- Every call of a data access keeps the flags of what it hands on. -/
def LocksReach (s : DataState) (r : DataRequest) (data : Buffer) (debug : BitVec 32) : Prop :=
  ∀ call ∈ (d.generics.execData r).1, ∀ h, d.handed s r call = some h →
    d.KeepsFlags s.system r.lock h data ⟨debug, true⟩

section Issue

variable {d} {s : MmuSystem} {h : Handed} {data : Buffer} {reply : Reply} {lock : Bool}

/-- The lock of the transfer that an access does on the bus, if it does one. The adaptor of the
translation buffer gives the write of the bus interface the cacheability for it. -/
def carriedLock (d : DataSide) (s : MmuSystem) (h : Handed) (reply : Reply) : Option Bool :=
  if Translating s h ∧ (d.lookup s h reply).failed = true then none
  else if h.translated = true ∧ h.isWrite = true then
    if Translating s h then some (d.lookup s h reply).cacheable else some reply.cacheable
  else some h.request.isLock

/-- The transfer of an access itself. -/
def ownTransfers (d : DataSide) (s : MmuSystem) (h : Handed) (reply : Reply) : List Transfer :=
  match carriedLock d s h reply with
  | none => []
  | some lock => [⟨h.isWrite, { h.request with address := d.busAddress s h reply, isLock := lock }⟩]

/-- An access does the reads of its page tables and its own transfer, and its flag for cacheability
comes back from the component that determines it. -/
theorem issue_spec (d : DataSide) (s : MmuSystem) (h : Handed) (data : Buffer) (reply : Reply) :
    (d.issue s h data reply).1.bus.transfers =
        s.bus.transfers ++ (d.tableReads s h ++ ownTransfers d s h reply) ∧
      (d.issue s h data reply).2.cacheable = d.cacheability s h reply := by
  obtain ⟨translated, isWrite, address, asi, len, isDbg, isLock⟩ := h
  cases translated with
  | false =>
    cases isWrite with
    | true =>
      simp [issue, interface, busInterface, AhbMemory.memWrite, tableReads, ownTransfers, carriedLock,
        busAddress, cacheability, Translating]
    | false =>
      simp [issue, interface, busInterface, AhbMemory.memRead, tableReads, ownTransfers, carriedLock,
        busAddress, cacheability, Translating]
      cases isDbg <;> rfl
  | true =>
    by_cases off : s.mmu.controlReg &&& 1#32 = 0#32
    · cases isWrite with
      | true =>
        simp [issue, interface, tlbAdaptor, AhbMemory.memWrite, tableReads, ownTransfers, carriedLock,
          busAddress, cacheability, Translating, off]
      | false =>
        simp [issue, interface, tlbAdaptor, AhbMemory.memRead, tableReads, ownTransfers, carriedLock,
          busAddress, cacheability, Translating, off]
        cases isDbg <;> rfl
    · cases fails : (tlbLookup d.mmu d.mmu.tlbnum s.mmu s.bus address asi isDbg isWrite
        reply.cacheable).failed with
      | true =>
        cases isWrite with
        | true =>
          simp [issue, interface, tlbAdaptor, tableReads, ownTransfers, carriedLock, cacheability,
            Translating, lookup, tlbLookup_transfers, off, fails]
        | false =>
          simp [issue, interface, tlbAdaptor, tableReads, ownTransfers, carriedLock, cacheability,
            Translating, lookup, tlbLookup_transfers, off, fails]
      | false =>
        cases isWrite with
        | true =>
          simp [issue, interface, tlbAdaptor, AhbMemory.memWrite, tableReads, ownTransfers, carriedLock,
            busAddress, cacheability, Translating, lookup, tlbLookup_transfers, off, fails]
        | false =>
          simp [issue, interface, tlbAdaptor, AhbMemory.memRead, tableReads, ownTransfers, carriedLock,
            busAddress, cacheability, Translating, lookup, tlbLookup_transfers, off, fails]
          cases isDbg <;> rfl

theorem keepsFlags_iff :
    d.KeepsFlags s lock h data reply ↔
      ∀ carried, carriedLock d s h reply = some carried → h.request.isDbg = false → carried = lock := by
  obtain ⟨transfers, cacheable⟩ := issue_spec d s h data reply
  constructor
  · intro keeps carried carries dbg
    obtain ⟨own, split, locks⟩ := keeps.own
    have same : ownTransfers d s h reply = own :=
      List.append_cancel_left (List.append_cancel_left (transfers.symm.trans split))
    rw [← same, ownTransfers, carries] at locks
    exact locks _ (List.mem_singleton_self _) dbg
  · intro locks
    refine ⟨fun t member => ?_, ⟨_, transfers, fun t member dbg => ?_⟩, cacheable⟩
    · unfold tableReads at member
      by_cases translating : Translating s h
      · rw [if_pos translating] at member
        obtain ⟨a, -, rfl⟩ := List.mem_map.mp member
        rfl
      · rw [if_neg translating] at member
        cases member
    · unfold ownTransfers at member
      cases carries : carriedLock d s h reply with
      | none =>
        rw [carries] at member
        cases member
      | some carried =>
        rw [carries] at member
        obtain rfl := List.mem_singleton.mp member
        exact locks carried carries dbg

theorem keepsFlags_of_plain (plain : ¬(h.translated = true ∧ h.isWrite = true)) :
    d.KeepsFlags s h.request.isLock h data reply := by
  refine keepsFlags_iff.mpr fun carried carries _ => ?_
  unfold carriedLock at carries
  by_cases fails : Translating s h ∧ (d.lookup s h reply).failed = true
  · rw [if_pos fails] at carries
    cases carries
  · rw [if_neg fails, if_neg plain] at carries
    exact (Option.some.inj carries).symm

/-- A store through the adaptor keeps its flags if and only if the lock asked for is the cacheability of
its page, or set where nothing is translated. -/
theorem keepsFlags_store_iff {r : Request} (reply : Reply) :
    d.KeepsFlags s lock ⟨true, true, r⟩ data reply ↔
      (r.isDbg = false →
        if s.mmu.controlReg &&& 0x1 ≠ 0 then
          Enters d.mmu s.mmu s.bus r.address r.asi r.isDbg true →
            ((sourceWalk d.mmu s.mmu s.bus.memory r.address).entry &&& 1#32 <<< 7 ≠ 0 ↔ lock = true)
        else reply.cacheable = lock) := by
  rw [keepsFlags_iff]
  unfold carriedLock
  by_cases on : s.mmu.controlReg &&& 0x1 ≠ 0
  · have translating : Translating s ⟨true, true, r⟩ := ⟨rfl, on⟩
    have failed : (d.lookup s ⟨true, true, r⟩ reply).failed = true ↔
        ¬Enters d.mmu s.mmu s.bus r.address r.asi r.isDbg true := lookup_failed_iff
    by_cases enters : Enters d.mmu s.mmu s.bus r.address r.asi r.isDbg true
    · have found : (d.lookup s ⟨true, true, r⟩ reply).cacheable =
          decide ((sourceWalk d.mmu s.mmu s.bus.memory r.address).entry &&& 1#32 <<< 7 ≠ 0) := by
        rw [← getPhysicalAddress_pde d.mmu s.mmu s.bus r.address r.asi r.isDbg true]
        exact lookup_cacheable enters
      have agree (P : Prop) [Decidable P] : decide P = lock ↔ (P ↔ lock = true) := by
        cases lock with
        | true => simp
        | false => simp
      simp only [translating, failed, enters, not_true, and_false, if_false, and_self, if_true, found,
        Option.some.injEq, if_pos on, true_implies, ← agree]
      exact ⟨fun all dbg => all _ rfl dbg, fun same carried eq dbg => eq ▸ same dbg⟩
    · simp only [translating, failed, enters, not_false_iff, and_self, if_true, if_pos on,
        false_implies, implies_true, iff_true]
      exact fun carried carries => absurd carries (by simp)
  · have passing : ¬Translating s ⟨true, true, r⟩ := fun translating => on translating.2
    simp only [passing, false_and, if_false, and_self, if_true, Option.some.injEq, if_neg on]
    exact ⟨fun all dbg => all _ rfl dbg, fun same carried eq dbg => eq ▸ same dbg⟩

end Issue

section Accesses

variable {d} {s : DataState} {r : DataRequest}

/-- A store that goes through the data cache and the adaptor of the translation buffer. -/
def TranslatedStore (d : DataSide) (r : DataRequest) : Prop :=
  d.generics.mmuEn = true ∧ .cacheWrite .dcache ∈ (d.generics.execData r).1 ∧ r.isDbg = false

/-- A store behind the memory management unit asks for the lock exactly if its page is cacheable, or if
the unit is disabled. -/
def FlagsAgree (d : DataSide) (s : DataState) (r : DataRequest) : Prop :=
  TranslatedStore d r →
    if s.system.mmu.controlReg &&& 0x1 ≠ 0 then
      Enters d.mmu s.system.mmu s.system.bus r.addr r.asi false true →
        ((sourceWalk d.mmu s.system.mmu s.system.bus.memory r.addr).entry &&& 1#32 <<< 7 ≠ 0 ↔
          r.lock = true)
    else r.lock = true

theorem handed_cases {call : ComponentCall} {h : Handed} (hands : d.handed s r call = some h) :
    h.request.isLock = r.lock ∧
      (h.isWrite = false ∨
        (∃ side, call = .cacheWrite side) ∧ h = ⟨d.generics.mmuEn, true, parameters r⟩ ∨
          h.translated = false) := by
  cases call with
  | cacheRead side =>
    unfold handed at hands
    by_cases cached : d.generics.dcen = 1
    · rw [if_pos cached] at hands
      cases path : VectorCache.memReadLookup d.dcache s.ccr s.dcache (parameters r) with
      | hit way =>
        rw [path] at hands
        cases hands
      | refill cacheHit ahbAddress ahbLen =>
        rw [path] at hands
        obtain rfl := Option.some.inj hands
        exact ⟨rfl, .inl rfl⟩
      | bypass =>
        rw [path] at hands
        obtain rfl := Option.some.inj hands
        exact ⟨rfl, .inl rfl⟩
    · rw [if_neg cached] at hands
      obtain rfl := Option.some.inj hands
      exact ⟨rfl, .inl rfl⟩
  | cacheWrite side =>
    obtain rfl := Option.some.inj hands
    exact ⟨rfl, .inr (.inl ⟨⟨side, rfl⟩, rfl⟩)⟩
  | memRead | memWrite =>
    obtain rfl := Option.some.inj hands
    exact ⟨rfl, .inr (.inr rfl)⟩
  | _ => cases hands

theorem handed_store {call : ComponentCall} {h : Handed} (hands : d.handed s r call = some h)
    (store : h.translated = true ∧ h.isWrite = true) :
    (∃ side, call = .cacheWrite side) ∧ d.generics.mmuEn = true ∧ h = ⟨true, true, parameters r⟩ := by
  obtain ⟨translated, isWrite⟩ := store
  obtain ⟨-, load | ⟨write, rfl⟩ | plain⟩ := handed_cases hands
  · rw [load] at isWrite
    cases isWrite
  · exact ⟨write, translated, by rw [← translated]⟩
  · rw [plain] at translated
    cases translated

theorem memReadRefill_cacheable {cfg : Config} {ccr : BitVec 32} {c : VectorCache} {request : Request}
    {cacheHit : Option ℕ} {ahbAddress ahbLen : BitVec 32} {data ahbData : Buffer} {reply : Reply}
    {cacheableLocal : Bool} {result : VectorCache × Buffer × Reply}
    (refills : VectorCache.memReadRefill cfg ccr c request cacheHit ahbAddress ahbLen data ahbData reply
      cacheableLocal = some result) : result.2.2.cacheable = reply.cacheable := by
  unfold VectorCache.memReadRefill at refills
  cases cacheHit with
  | some way =>
    rw [← Option.some.inj refills]
    rfl
  | none =>
    dsimp only at refills
    by_cases caches : VectorCache.checkMode cfg ccr &&& 0x2 ≠ 0 ∧ cacheableLocal = true
    · rw [if_pos caches] at refills
      obtain ⟨step, allocates, rest⟩ := Option.bind_eq_some_iff.mp refills
      obtain ⟨allocated, -, rfl⟩ := Option.map_eq_some_iff.mp allocates
      rw [← Option.some.inj rest]
      rfl
    · rw [if_neg caches] at refills
      by_cases frozen : VectorCache.checkMode cfg ccr &&& 0x2 = 0
      · rw [if_pos frozen] at refills
        rw [← Option.some.inj refills]
        rfl
      · rw [if_neg frozen] at refills
        rw [← Option.some.inj refills]
        rfl

/-- A load through the cache leaves what its access behind the cache left. -/
theorem memRead_performs {side : CacheType} (cached : d.generics.dcen = 1) {data ahbData : Buffer}
    {reply reply' : Reply} {c' : VectorCache} {system' : MmuSystem} {data' : Buffer}
    (loads : VectorCache.memRead d.dcache (d.interface d.generics.mmuEn) s.ccr s.dcache s.system
      (parameters r) data reply ahbData = some (c', system', data', reply')) :
    ∃ buffer, (d.perform s r buffer reply (.cacheRead side)).1 = system' ∧
      (d.perform s r buffer reply (.cacheRead side)).2.cacheable = reply'.cacheable := by
  unfold VectorCache.memRead at loads
  unfold perform handed
  rw [if_pos cached]
  cases path : VectorCache.memReadLookup d.dcache s.ccr s.dcache (parameters r) with
  | hit way =>
    rw [path] at loads
    obtain ⟨-, rfl, -, rfl⟩ := Prod.mk.injEq .. ▸ Option.some.inj loads
    exact ⟨data, rfl, rfl⟩
  | refill cacheHit ahbAddress ahbLen =>
    rw [path] at loads
    obtain ⟨result, refills, same⟩ := Option.map_eq_some_iff.mp loads
    obtain ⟨-, rfl, -, rfl⟩ := Prod.mk.injEq .. ▸ same
    exact ⟨ahbData, rfl, (memReadRefill_cacheable refills).symm⟩
  | bypass =>
    rw [path] at loads
    obtain ⟨-, rfl, -, rfl⟩ := Prod.mk.injEq .. ▸ Option.some.inj loads
    exact ⟨data, rfl, rfl⟩

theorem memWrite_performs {side : CacheType} (data : Buffer) (reply : Reply) :
    (VectorCache.memWrite d.dcache (d.interface d.generics.mmuEn) s.ccr s.dcache s.system (parameters r)
        data reply).2.1 = (d.perform s r data reply (.cacheWrite side)).1 ∧
      (VectorCache.memWrite d.dcache (d.interface d.generics.mmuEn) s.ccr s.dcache s.system
        (parameters r) data reply).2.2.cacheable =
        (d.perform s r data reply (.cacheWrite side)).2.cacheable := by
  have updated : (VectorCache.memWriteUpdate d.dcache s.dcache (parameters r) data reply).2.cacheable =
      reply.cacheable := by
    unfold VectorCache.memWriteUpdate
    dsimp only
    cases VectorCache.locateLine d.dcache s.dcache _ _ _ _ with
    | some way => rfl
    | none => rfl
  have debug (other : Reply) (same : other.cacheable = reply.cacheable) :
      ((d.interface d.generics.mmuEn).memWrite s.system (parameters r) data other).1 =
          (d.perform s r data reply (.cacheWrite side)).1 ∧
        ((d.interface d.generics.mmuEn).memWrite s.system (parameters r) data other).2.cacheable =
          (d.perform s r data reply (.cacheWrite side)).2.cacheable := by
    obtain ⟨word, cacheable⟩ := other
    obtain ⟨word', cacheable'⟩ := reply
    obtain rfl : cacheable = cacheable' := same
    simp only [perform, handed, issue, interface, if_true]
    cases d.generics.mmuEn with
    | false => exact ⟨rfl, rfl⟩
    | true =>
      simp only [tlbAdaptor, if_true]
      split_ifs
      · exact ⟨rfl, rfl⟩
      · exact ⟨rfl, rfl⟩
      · exact ⟨rfl, rfl⟩
  unfold VectorCache.memWrite
  by_cases searched : (parameters r).asi ≠ 0x1c ∧ VectorCache.checkMode d.dcache s.ccr &&& 0x1 ≠ 0
  · rw [if_pos searched]
    exact debug _ updated
  · rw [if_neg searched]
    exact debug reply rfl

/-- The accesses of the processor keep the lock and the flag for cacheability on their way to the bus if
and only if the flags of a store behind the memory management unit agree: the adaptor hands them to the
write of the bus interface in exchanged order. -/
theorem locks_reach_iff (d : DataSide) (s : DataState) (r : DataRequest) (data : Buffer)
    (debug : BitVec 32) : d.LocksReach s r data debug ↔ FlagsAgree d s r := by
  constructor
  · rintro reach ⟨unit, member, dbg⟩
    have keeps := reach _ member _ rfl
    rw [unit] at keeps
    have agree := keepsFlags_store_iff _ |>.mp keeps dbg
    dsimp only [parameters] at agree
    rw [dbg] at agree
    rwa [eq_comm (a := true)] at agree
  · intro agree call member h hands
    by_cases store : h.translated = true ∧ h.isWrite = true
    · obtain ⟨⟨side, rfl⟩, unit, rfl⟩ := handed_store hands store
      have data_side := (CacheGenerics.cacheWrite_mem_iff.mp member).1
      subst data_side
      refine (keepsFlags_store_iff _).mpr fun dbg => ?_
      have holds := agree ⟨unit, member, dbg⟩
      dsimp only [parameters]
      rw [show r.isDbg = false from dbg, eq_comm (a := true)]
      exact holds
    · rw [← (handed_cases hands).1]
      exact keepsFlags_of_plain store

end Accesses

/-- A store of a word. -/
def wordStore (lock : Bool) : DataRequest :=
  { CacheGenerics.wordLoad 0x40000000 0xa with cmd := .write, lock := lock }

/-- Behind a memory management unit that is disabled a store is locked that does not ask for it. -/
theorem disabled_unit_locks :
    ¬∀ (d : DataSide) (s : DataState) (r : DataRequest) (data : Buffer) (debug : BitVec 32),
      d.LocksReach s r data debug := by
  intro all
  let d : DataSide := ⟨⟨false, 0, false, 0, 0, 0, 0, 0, true⟩, smallDataCache, smallMmu⟩
  let s : DataState := ⟨resetCache, 0, ⟨{ enabledMmu with controlReg := 0 }, ⟨fun _ => 0, [], []⟩⟩⟩
  have keeps := all d s (wordStore false) (fun _ => 0) 0 (.cacheWrite .dcache) (by decide) _ rfl
  have lock := (keepsFlags_store_iff _).mp keeps rfl
  rw [if_neg (by decide)] at lock
  cases lock

end DataSide

end Socrocket.MmuCache
