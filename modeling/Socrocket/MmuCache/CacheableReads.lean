/- Socrocket/MmuCache/CacheableReads
   digest: When reads allocate only what the page table entry, the bus and the cacheability mask all
   call cacheable, along runs of a cache behind its memory management unit. -/

import Socrocket.Base.Run
import Socrocket.MmuCache.BusRefill
import Socrocket.MmuCache.FaultRegisters

set_option autoImplicit false
set_option relaxedAutoImplicit false

namespace Socrocket.MmuCache

open Socrocket.Base.ByteMemory
open Socrocket.Base.Run
open VectorCache

/-- A cache under its control register, and the unit and the memory behind it. -/
structure CachedMmu where
  cache : VectorCache
  ccr : BitVec 32
  system : MmuSystem

/-- What happens to them: accesses of the processor with the way the bus completes reads, flushes,
snoops, diagnostic tag writes, writes of the registers, and writes of another bus master. -/
inductive CachedMmuOp where
  | memRead (r : Request) (data : Buffer) (reply : Reply) (ahbData : Buffer)
      (bus : Request → Completion)
  | memWrite (r : Request) (data : Buffer) (reply : Reply)
  | flush (reply : Reply)
  | snoop (s : Snoop)
  | writeCacheTag (address data : BitVec 32)
  | writeCcr (ccr : BitVec 32)
  | writeMcr (data : BitVec 32)
  | writeMctpr (data : BitVec 32)
  | writeMctxr (data : BitVec 32)
  | busWrite (w : BlockWrite 32)

variable (cfg : Config) (mcfg : MmuConfig) (setlock : Bool)

/-- Perform one step. -/
def cachedStep (s : CachedMmu) : CachedMmuOp → Option CachedMmu
  | .memRead r data reply ahbData bus =>
    (memRead cfg (busAdaptor mcfg bus) s.ccr s.cache s.system r data reply ahbData).map fun t =>
      { s with cache := t.1, system := t.2.1 }
  | .memWrite r data reply =>
    let t := memWrite cfg (tlbAdaptor mcfg) s.ccr s.cache s.system r data reply
    some { s with cache := t.1, system := t.2.1 }
  | .flush reply => some { s with cache := (VectorCache.flush cfg s.cache reply).1 }
  | .snoop snoop => (snoopInvalidate cfg s.ccr s.cache snoop).map fun c => { s with cache := c }
  | .writeCacheTag address data =>
    (VectorCache.writeCacheTag cfg setlock s.cache address data).map fun c => { s with cache := c }
  | .writeCcr ccr => some { s with ccr := ccr }
  | .writeMcr data => some { s with system := { s.system with mmu := s.system.mmu.writeMcr data } }
  | .writeMctpr data => some { s with system := { s.system with mmu := s.system.mmu.writeMctpr data } }
  | .writeMctxr data => some { s with system := { s.system with mmu := s.system.mmu.writeMctxr data } }
  | .busWrite w => some { s with system := { s.system with
      bus := { s.system.bus with memory := w.apply s.system.bus.memory } } }

/-- The page table entry of an access has the cacheable bit. -/
def PteCacheable (s : MmuSystem) (q : Request) : Prop :=
  (getPhysicalAddress mcfg s.mmu s.bus q.address q.asi q.isDbg false).pde &&& 1#32 <<< 7 ≠ 0

/-- All authorities agree that the data of a read is cacheable: it was translated, by an entry with the
cacheable bit, unless the unit is off, the transaction carries the extension, and the mask has the
bit of the physical address unless it is zero. -/
structure Agreed (bus : Request → Completion) (s : MmuSystem) (q : Request) (reply : Reply) : Prop where
  translates : ¬ TranslationFails mcfg s q reply
  entry : s.mmu.controlReg &&& 0x1 ≠ 0 → PteCacheable mcfg s q
  extension : (bus (physical mcfg s q reply)).extension = true
  area : AreaCached mcfg (physical mcfg s q reply).address

/-- A read on whose cacheability the authorities do not all agree leaves the lines as they are. -/
def RespectsAuthorities (s : CachedMmu) : CachedMmuOp → Prop
  | .memRead r data reply _ bus => ∀ q, issued cfg s.ccr s.cache r = some q →
      ¬ Agreed mcfg bus s.system q reply →
        LeavesLines mcfg bus cfg s.ccr s.cache s.system r data reply
  | _ => True

/-- No forced miss refills a line on which an authority disagrees, and a missed read through an entry
without the cacheable bit is refused by another authority, or finds the cache frozen. -/
def AuthoritiesFit (s : CachedMmu) : CachedMmuOp → Prop
  | .memRead r _ reply _ bus => ∀ hit address len,
      memReadLookup cfg s.ccr s.cache r = .refill hit address len →
        (hit ≠ none → Agreed mcfg bus s.system { r with address := address, len := len } reply) ∧
        (hit = none → s.system.mmu.controlReg &&& 0x1 ≠ 0 →
          ¬ PteCacheable mcfg s.system { r with address := address, len := len } →
            checkMode cfg s.ccr &&& 0x2 = 0 ∨
              ¬ AnsweredCacheable mcfg bus s.system { r with address := address, len := len } reply)
  | _ => True

variable {cfg mcfg setlock} {bus : Request → Completion} {s : CachedMmu} {q : Request} {reply : Reply}

theorem agreed_iff : Agreed mcfg bus s.system q reply ↔
    AnsweredCacheable mcfg bus s.system q reply ∧
      (s.system.mmu.controlReg &&& 0x1 ≠ 0 → PteCacheable mcfg s.system q) := by
  constructor
  · intro agreed
    exact ⟨⟨agreed.translates, agreed.area, agreed.extension⟩, agreed.entry⟩
  · rintro ⟨⟨translates, area, extension⟩, entry⟩
    exact ⟨translates, entry, extension, area⟩

/-- One read respects the authorities exactly when it fits. -/
theorem respects_iff (op : CachedMmuOp) :
    RespectsAuthorities cfg mcfg s op ↔ AuthoritiesFit cfg mcfg s op := by
  cases op with
  | memRead r data reply ahbData bus =>
    constructor
    · intro respects hit address len path
      have reads : issued cfg s.ccr s.cache r = some { r with address := address, len := len } := by
        rw [issued, path]
      have idle (disagree : ¬ Agreed mcfg bus s.system
          { r with address := address, len := len } reply) :=
        leavesLines_iff.mp (respects _ reads disagree) hit address len path
      refine ⟨fun some_hit => ?_, fun _ on uncached => ?_⟩
      · by_contra disagree
        exact some_hit (idle disagree).1
      · by_contra allocates
        rw [not_or, not_not] at allocates
        exact (idle fun agreed => uncached (agreed.entry on)).2 allocates
    · intro fits q reads disagree
      refine leavesLines_iff.mpr fun hit address len path => ?_
      rw [issued, path, Option.some.injEq] at reads
      subst reads
      obtain ⟨forced, missed⟩ := fits hit address len path
      have none_hit : hit = none := by
        by_contra some_hit
        exact disagree (forced some_hit)
      refine ⟨none_hit, fun ⟨unfrozen, answered⟩ => ?_⟩
      have on_uncached : s.system.mmu.controlReg &&& 0x1 ≠ 0 ∧
          ¬ PteCacheable mcfg s.system { r with address := address, len := len } := by
        rw [← Classical.not_imp]
        exact fun entry => disagree (agreed_iff.mpr ⟨answered, entry⟩)
      rcases missed none_hit on_uncached.1 on_uncached.2 with frozen | refused
      · exact unfrozen frozen
      · exact refused answered
  | _ => exact Iff.rfl

/-- Only cacheable data is allocated throughout a run exactly when all reads of the run fit. -/
theorem cacheable_only_iff (cfg : Config) (mcfg : MmuConfig) (setlock : Bool) {start s : CachedMmu}
    {ops : List CachedMmuOp} (reached : run (cachedStep cfg mcfg setlock) start ops = some s) :
    Along (cachedStep cfg mcfg setlock) (RespectsAuthorities cfg mcfg) start ops ↔
      Along (cachedStep cfg mcfg setlock) (AuthoritiesFit cfg mcfg) start ops :=
  along_iff_along (P := fun _ => True) (fun _ op _ _ _ => respects_iff op) (fun _ _ _ _ _ => trivial)
    trivial reached

/-- A cache behind a unit whose only page has no cacheable bit. -/
def uncachedPage : CachedMmu := ⟨resetCache, 0xc, ⟨enabledMmu, ⟨supervisorTables, [], []⟩⟩⟩

/-- A bus that calls everything cacheable. -/
def cacheableBus (_ : Request) : Completion := ⟨fun _ => 0, true, true⟩

/-- A load of a supervisor from the page. -/
def pageLoad : CachedMmuOp :=
  .memRead ⟨0x40, 0xb, 4, false, false⟩ (fun _ => 0) ⟨0, false⟩ (fun _ => 0) cacheableBus

theorem cacheable_only_page_load :
    ∃ s, run (cachedStep smallDataCache smallMmu false) uncachedPage [pageLoad] = some s ∧
      (Along (cachedStep smallDataCache smallMmu false) (RespectsAuthorities smallDataCache smallMmu)
          uncachedPage [pageLoad] ↔
        Along (cachedStep smallDataCache smallMmu false) (AuthoritiesFit smallDataCache smallMmu)
          uncachedPage [pageLoad]) := by
  have completes : (run (cachedStep smallDataCache smallMmu false) uncachedPage [pageLoad]).isSome := by
    decide +kernel
  obtain ⟨s, reached⟩ := Option.isSome_iff_exists.mp completes
  exact ⟨s, reached, cacheable_only_iff smallDataCache smallMmu false reached⟩

/-- The load misses, and its line is allocated although the page is not cacheable. -/
theorem uncached_page_is_allocated :
    ¬ RespectsAuthorities smallDataCache smallMmu uncachedPage pageLoad := by
  intro respects
  have path : memReadLookup smallDataCache 0xc resetCache ⟨0x40, 0xb, 4, false, false⟩ =
      .refill none 0x40 16 := by decide +kernel
  have translates : ¬ TranslationFails smallMmu uncachedPage.system ⟨0x40, 0xb, 16, false, false⟩
      ⟨0, false⟩ := by decide +kernel
  have uncached : ¬ PteCacheable smallMmu uncachedPage.system ⟨0x40, 0xb, 16, false, false⟩ := by
    unfold PteCacheable
    decide +kernel
  have missed := ((respects_iff pageLoad).mp respects none 0x40 16 path).2 rfl (by decide) uncached
  rcases missed with frozen | refused
  · exact absurd frozen (by decide)
  · exact refused ⟨translates, .inl rfl, rfl⟩

end Socrocket.MmuCache
