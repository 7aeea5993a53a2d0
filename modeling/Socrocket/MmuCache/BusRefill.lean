/- Socrocket/MmuCache/BusRefill
   digest: Reads of a cache over the memory management unit and a bus that may complete a transfer
   with any response, and when a refill writes to the lines. -/

import Socrocket.MmuCache.CacheRuns
import Socrocket.MmuCache.PartialFetch
import Socrocket.MmuCache.Protection

set_option autoImplicit false
set_option relaxedAutoImplicit false

namespace Socrocket.MmuCache

open Socrocket.Base.ByteMemory
open Socrocket.Core.SrRegister
open VectorCache

/-- How the bus completes a read: the bytes it leaves in the buffer, whether the response is OK, and
whether the transaction carries the extension for cacheability. -/
structure Completion where
  data : Buffer
  ok : Bool
  extension : Bool

namespace AhbMemory

/-- A blocking read, however the bus completes it. The response is not looked at. -/
def busRead (mCached : BitVec 32) (bus : Request → Completion) (b : AhbMemory) (r : Request)
    (data : Buffer) (reply : Reply) : ReadResult AhbMemory :=
  let completion := bus r
  let cacheable := if r.isDbg then reply.cacheable else completion.extension
  let cacheableLocal := if r.isDbg ∨ mCached = 0 then true
    else bitGet mCached (r.address >>> 28).toNat
  { state := { b with transfers := b.transfers ++ [⟨false, r⟩] }
    data := memcpy data completion.data r.len.toNat
    reply := { reply with cacheable := cacheable }
    isCacheable := cacheableLocal && cacheable }

/-- The bus of a memory that completes every read. -/
def completes (p : Cacheability) (memory : Memory 32) (r : Request) : Completion :=
  ⟨bytesAt memory r.address, true, p.extension r.address⟩

end AhbMemory

variable (mcfg : MmuConfig) (bus : Request → Completion)

/-- The adaptor between a cache and a bus interface whose data transfers complete in any way. The
page tables are read from memory. -/
def busAdaptor : MemIf MmuSystem where
  memRead s r data reply :=
    if s.mmu.controlReg &&& 0x1 ≠ 0 then
      let found := tlbLookup mcfg mcfg.tlbnum s.mmu s.bus r.address r.asi r.isDbg false reply.cacheable
      let reply := { reply with cacheable := found.cacheable }
      if found.failed then ⟨⟨found.mmu, found.bus⟩, data, reply, false⟩
      else
        let result := found.bus.busRead mcfg.cacheability.mCached bus
          { r with address := found.paddr.setWidth 32 } data reply
        ⟨⟨found.mmu, result.state⟩, result.data, result.reply, result.isCacheable⟩
    else
      let result := s.bus.busRead mcfg.cacheability.mCached bus r data reply
      ⟨⟨s.mmu, result.state⟩, result.data, result.reply, result.isCacheable⟩
  memWrite := (tlbAdaptor mcfg).memWrite

/-- The unit translates, and the translation fails. -/
def TranslationFails (s : MmuSystem) (q : Request) (reply : Reply) : Prop :=
  s.mmu.controlReg &&& 0x1 ≠ 0 ∧ (accessLookup mcfg s q false reply).failed = true

instance (s : MmuSystem) (q : Request) (reply : Reply) : Decidable (TranslationFails mcfg s q reply) :=
  inferInstanceAs (Decidable (_ ∧ _))

/-- The transfer on the bus for a read whose translation does not fail. -/
def physical (s : MmuSystem) (q : Request) (reply : Reply) : Request :=
  if s.mmu.controlReg &&& 0x1 ≠ 0 then
    { q with address := (accessLookup mcfg s q false reply).paddr.setWidth 32 }
  else q

/-- The mask of the cacheable areas admits an address. -/
def AreaCached (address : BitVec 32) : Prop :=
  mcfg.cacheability.mCached = 0 ∨ bitGet mcfg.cacheability.mCached (address >>> 28).toNat = true

/-- The answer of the adaptor to a read that is no debug access: its translation did not fail, and the
mask and the bus admit its physical address. -/
def AnsweredCacheable (s : MmuSystem) (q : Request) (reply : Reply) : Prop :=
  ¬ TranslationFails mcfg s q reply ∧ AreaCached mcfg (physical mcfg s q reply).address ∧
    (bus (physical mcfg s q reply)).extension = true

variable (cfg : Config)

/-- The read that a cache issues for a request, if any. -/
def issued (ccr : BitVec 32) (c : VectorCache) (r : Request) : Option Request :=
  match memReadLookup cfg ccr c r with
  | .hit _ => none
  | .refill _ address len => some { r with address := address, len := len }
  | .bypass => some r

/-- No tag, lock, valid bit or data of any line differs. -/
def Untouched (c c' : VectorCache) : Prop := ∀ pos, (c'.cacheMem pos).core = (c.cacheMem pos).core

/-- The bus that completes every read in the same way, with other bytes. -/
def withData (bus : Request → Completion) (delivered : Request → Buffer) (q : Request) : Completion :=
  { bus q with data := delivered q }

/-- Whatever bytes the bus delivers and the local buffer holds, the read ends and leaves the lines as
they are. -/
def LeavesLines (ccr : BitVec 32) (c : VectorCache) (s : MmuSystem) (r : Request) (data : Buffer)
    (reply : Reply) : Prop :=
  ∀ delivered ahbData, ∃ c' answer,
    memRead cfg (busAdaptor mcfg (withData bus delivered)) ccr c s r data reply ahbData =
      some (c', answer) ∧ Untouched c c'

variable {mcfg bus cfg} {s : MmuSystem} {q r : Request} {data ahbData : Buffer} {reply : Reply}

/-- Over the bus of a memory the adaptor is the adaptor of that memory. -/
theorem busAdaptor_completes :
    (busAdaptor mcfg (AhbMemory.completes mcfg.cacheability s.bus.memory)).memRead s r data reply =
      (tlbAdaptor mcfg).memRead s r data reply := by
  have same : (tlbLookup mcfg mcfg.tlbnum s.mmu s.bus r.address r.asi r.isDbg false
    reply.cacheable).bus.memory =
      s.bus.memory := tlbLookup_memory
  by_cases on : s.mmu.controlReg &&& 0x1 ≠ 0
  · simp only [busAdaptor, tlbAdaptor, if_pos on, AhbMemory.busRead, AhbMemory.memRead,
      AhbMemory.completes, same]
  · simp only [busAdaptor, tlbAdaptor, if_neg on]
    rfl

theorem busAdaptor_of_fails (fails : TranslationFails mcfg s q reply) :
    ((busAdaptor mcfg bus).memRead s q ahbData reply).data = ahbData ∧
      ((busAdaptor mcfg bus).memRead s q ahbData reply).isCacheable = false := by
  have failed : (tlbLookup mcfg mcfg.tlbnum s.mmu s.bus q.address q.asi q.isDbg false
    reply.cacheable).failed = true := fails.2
  simp only [busAdaptor, if_pos fails.1, if_pos failed, and_self]

theorem busAdaptor_of_translates (plain : q.isDbg = false)
    (translates : ¬ TranslationFails mcfg s q reply) :
    ((busAdaptor mcfg bus).memRead s q ahbData reply).data =
        memcpy ahbData (bus (physical mcfg s q reply)).data q.len.toNat ∧
      (((busAdaptor mcfg bus).memRead s q ahbData reply).isCacheable = true ↔
        AreaCached mcfg (physical mcfg s q reply).address ∧
          (bus (physical mcfg s q reply)).extension = true) := by
  obtain ⟨address, asi, len, isDbg, isLock⟩ := q
  subst plain
  have area (a : BitVec 32) : (if mcfg.cacheability.mCached = 0 then true
      else bitGet mcfg.cacheability.mCached (a >>> 28).toNat) = true ↔ AreaCached mcfg a := by
    rw [AreaCached]
    by_cases all : mcfg.cacheability.mCached = 0 <;> simp [all]
  by_cases on : s.mmu.controlReg &&& 0x1 ≠ 0
  · have found : ¬ (tlbLookup mcfg mcfg.tlbnum s.mmu s.bus address asi false false
      reply.cacheable).failed = true :=
      fun failed => translates ⟨on, failed⟩
    simp only [busAdaptor, physical, accessLookup, if_pos on, if_neg found, AhbMemory.busRead,
      Bool.and_eq_true, Bool.false_eq_true, false_or, area, if_false, and_self]
  · simp only [busAdaptor, physical, if_neg on, AhbMemory.busRead, Bool.and_eq_true,
      Bool.false_eq_true, false_or, area, if_false, and_self]

theorem busAdaptor_isCacheable (plain : q.isDbg = false) :
    ((busAdaptor mcfg bus).memRead s q ahbData reply).isCacheable = true ↔
      AnsweredCacheable mcfg bus s q reply := by
  by_cases fails : TranslationFails mcfg s q reply
  · rw [(busAdaptor_of_fails fails).2]
    exact iff_of_false Bool.false_ne_true fun answered => answered.1 fails
  · rw [(busAdaptor_of_translates plain fails).2]
    exact ⟨fun both => ⟨fails, both⟩, fun answered => answered.2⟩

section Lines

variable {c c' : VectorCache} {ccr : BitVec 32} {tag idx offset len : BitVec 32} {way : ℕ}

theorem entry_updateLine : (lookupLine cfg
    (updateLine cfg c tag idx offset way len data) idx way).entry =
    copyTo (lookupLine cfg c idx way).entry ((offset >>> 2).toNat * 4 + (offset &&& 0x3).toNat) data
      len.toNat := by
  refine (view_updateLine c idx tag offset len data CacheLine.entry ?_ (position cfg idx way)).trans ?_
  · intro line valid atag lrr lru
    rfl
  · simp only [fillEntry]
    change (lookupLine cfg (modifyLine cfg c idx way _) idx way).entry = _
    rw [lookupLine_modifyLine_same]

theorem allocateLine_way {d d' : Buffer} {way' : ℕ} {c₁ c₂ : VectorCache}
    (allocated : allocateLine cfg c tag idx offset len d = some (way, c₁))
    (allocated' : allocateLine cfg c tag idx offset len d' = some (way', c₂)) : way = way' := by
  unfold allocateLine at allocated allocated'
  cases free : (List.range (cfg.mSets + 1)).find? fun way =>
      lineFree cfg (lookupLine cfg c idx way) offset len with
  | some v =>
    rw [free, Option.some.injEq, Prod.mk.injEq] at allocated allocated'
    exact allocated.1.symm.trans allocated'.1
  | none =>
    rw [free] at allocated allocated'
    obtain ⟨r, selected, eq⟩ := Option.map_eq_some_iff.mp allocated
    obtain ⟨r', selected', eq'⟩ := Option.map_eq_some_iff.mp allocated'
    rw [selected, Option.some.injEq] at selected'
    rw [← selected'] at eq'
    exact (congrArg Prod.fst eq).symm.trans (congrArg Prod.fst eq')

theorem first_byte_of_untouched {c₀ : VectorCache} (some_byte : 0 < len.toNat)
    (same : c₀.cacheMem = c.cacheMem)
    (written : c'.cacheMem = (updateLine cfg c₀ tag idx offset way len data).cacheMem)
    (untouched : Untouched c c') :
    data 0 = (lookupLine cfg c idx way).entry ((offset >>> 2).toNat * 4 + (offset &&& 0x3).toNat) := by
  have entry := congrArg LineCore.entry (untouched (position cfg idx way))
  rw [written] at entry
  change (lookupLine cfg (updateLine cfg c₀ tag idx offset way len data) idx way).entry =
    (lookupLine cfg c idx way).entry at entry
  have line : lookupLine cfg c₀ idx way = lookupLine cfg c idx way := by
    rw [lookupLine, lookupLine, same]
  rw [entry_updateLine, line] at entry
  rw [← congrFun entry, copyTo, if_pos ⟨le_refl _, by omega⟩, Nat.sub_self]

variable {hit : Option ℕ} {address : BitVec 32} {cacheableLocal : Bool}

theorem refill_untouched (missed : hit = none)
    (idle : ¬ (checkMode cfg ccr &&& 0x2 ≠ 0 ∧ cacheableLocal = true)) :
    ∃ c' answer, memReadRefill cfg ccr c r hit address len data ahbData reply cacheableLocal =
      some (c', answer) ∧ Untouched c c' := by
  subst missed
  simp only [memReadRefill, if_neg idle, Option.bind_eq_bind]
  by_cases frozen : checkMode cfg ccr &&& 0x2 = 0
  · rw [if_pos frozen]
    exact ⟨_, _, rfl, fun _ => rfl⟩
  · rw [if_neg frozen]
    exact ⟨_, _, rfl, fun _ => rfl⟩

theorem refill_touches (some_byte : 0 < len.toNat)
    (writes : hit ≠ none ∨ (checkMode cfg ccr &&& 0x2 ≠ 0 ∧ cacheableLocal = true))
    {d d' : Buffer} {c₁ c₂ : VectorCache} {answer₁ answer₂ : Buffer × Reply} {reply' : Reply}
    (refilled₁ : memReadRefill cfg ccr c r hit address len data d reply cacheableLocal =
      some (c₁, answer₁))
    (refilled₂ : memReadRefill cfg ccr c r hit address len data d' reply' cacheableLocal =
      some (c₂, answer₂))
    (untouched₁ : Untouched c c₁) (untouched₂ : Untouched c c₂) : d 0 = d' 0 := by
  cases hit with
  | some way =>
    simp only [memReadRefill, Option.bind_eq_bind, Option.bind_some, Option.some.injEq,
      Prod.mk.injEq] at refilled₁ refilled₂
    obtain ⟨rfl, -⟩ := refilled₁
    obtain ⟨rfl, -⟩ := refilled₂
    exact (first_byte_of_untouched some_byte rfl rfl untouched₁).trans
      (first_byte_of_untouched some_byte rfl rfl untouched₂).symm
  | none =>
    have allocate := writes.resolve_left fun some_hit => some_hit rfl
    simp only [memReadRefill, if_pos allocate, Option.bind_eq_bind] at refilled₁ refilled₂
    obtain ⟨step₁, allocated₁, eq₁⟩ := Option.bind_eq_some_iff.mp refilled₁
    obtain ⟨step₂, allocated₂, eq₂⟩ := Option.bind_eq_some_iff.mp refilled₂
    obtain ⟨⟨v, e₁⟩, chosen₁, rfl⟩ := Option.map_eq_some_iff.mp allocated₁
    obtain ⟨⟨v', e₂⟩, chosen₂, rfl⟩ := Option.map_eq_some_iff.mp allocated₂
    obtain rfl := allocateLine_way chosen₁ chosen₂
    obtain ⟨-, f₁, same₁, rfl⟩ := allocates_of_allocateLine chosen₁
    obtain ⟨-, f₂, same₂, rfl⟩ := allocates_of_allocateLine chosen₂
    simp only [Option.some.injEq, Prod.mk.injEq] at eq₁ eq₂
    obtain ⟨rfl, -⟩ := eq₁
    obtain ⟨rfl, -⟩ := eq₂
    exact (first_byte_of_untouched some_byte same₁ rfl untouched₁).trans
      (first_byte_of_untouched some_byte same₂ rfl untouched₂).symm

end Lines

section Reads

variable {c : VectorCache} {ccr : BitVec 32} {hit : Option ℕ} {address len : BitVec 32}

theorem refillTransfer_pos (ccr address len : BitVec 32) :
    0 < (refillTransfer cfg ccr address len).2.toNat := by
  cases mode : cfg.newLinefetchEn with
  | true =>
    rw [refillTransfer, if_pos mode, cfg.toNat_mBytesperline]
    exact cfg.mBytesperline_pos
  | false =>
    rw [(refillTransfer_spec mode ccr address len).2]
    have below := cfg.getOffset_lt address
    unfold wordFetch
    split_ifs <;> omega

theorem refill_of_memReadLookup (path : memReadLookup cfg ccr c r = .refill hit address len) :
    r.isDbg = false ∧ 0 < len.toNat := by
  rcases memReadLookup_cases cfg ccr c r with bypass | ⟨searched, ⟨v, found, hits⟩ | ⟨-, refill⟩⟩
  · rw [bypass] at path
    cases path
  · rw [hits] at path
    cases path
  · rw [refill] at path
    injection path with _ _ same
    exact ⟨searched.1, same ▸ refillTransfer_pos ccr r.address r.len⟩

theorem busAdaptor_first_byte (plain : q.isDbg = false) (x : BitVec 8) :
    ((busAdaptor mcfg (withData bus fun _ _ => x)).memRead s q (fun _ => x) reply).data 0 = x := by
  by_cases fails : TranslationFails mcfg s q reply
  · rw [(busAdaptor_of_fails fails).1]
  · rw [(busAdaptor_of_translates plain fails).1, memcpy]
    exact ite_self x

theorem memReadHit_untouched (way : ℕ) : Untouched c (memReadHit cfg c r data reply way).1 := by
  intro pos
  by_cases lru : cfg.mRepl = 1
  · simp only [memReadHit, if_pos lru]
    refine view_foldl_modifyLine CacheLine.core _ (fun v line => ?_) _ pos
    split_ifs <;> rfl
  · simp only [memReadHit, if_neg lru]

theorem leavesLines_of_refill (path : memReadLookup cfg ccr c r = .refill hit address len) :
    LeavesLines mcfg bus cfg ccr c s r data reply ↔
      hit = none ∧ ¬ (checkMode cfg ccr &&& 0x2 ≠ 0 ∧
        AnsweredCacheable mcfg bus s { r with address := address, len := len } reply) := by
  obtain ⟨plain, some_byte⟩ := refill_of_memReadLookup path
  have answer (delivered : Request → Buffer) (ahbData : Buffer) :
      ((busAdaptor mcfg (withData bus delivered)).memRead s { r with address := address, len := len }
        ahbData reply).isCacheable = true ↔
          AnsweredCacheable mcfg bus s { r with address := address, len := len } reply :=
    busAdaptor_isCacheable plain
  constructor
  · intro leaves
    by_contra written
    have writes : hit ≠ none ∨ (checkMode cfg ccr &&& 0x2 ≠ 0 ∧
        AnsweredCacheable mcfg bus s { r with address := address, len := len } reply) := by
      by_cases some_hit : hit = none
      · right
        by_contra idle
        exact written ⟨some_hit, idle⟩
      · exact .inl some_hit
    -- two transfers that differ in their first byte
    obtain ⟨c₀, answer₀, read₀, untouched₀⟩ := leaves (fun _ _ => 0) fun _ => 0
    obtain ⟨c₁, answer₁, read₁, untouched₁⟩ := leaves (fun _ _ => 1) fun _ => 1
    rw [memRead, path] at read₀ read₁
    obtain ⟨⟨e₀, rest₀⟩, refilled₀, eq₀⟩ := Option.map_eq_some_iff.mp read₀
    obtain ⟨⟨e₁, rest₁⟩, refilled₁, eq₁⟩ := Option.map_eq_some_iff.mp read₁
    obtain ⟨rfl, -⟩ := Prod.mk.inj eq₀
    obtain ⟨rfl, -⟩ := Prod.mk.inj eq₁
    have flags := Bool.eq_iff_iff.mpr ((answer (fun _ _ => 1) fun _ => 1).trans
      (answer (fun _ _ => 0) fun _ => 0).symm)
    rw [flags] at refilled₁
    have same := refill_touches some_byte (writes.imp_right fun both =>
      ⟨both.1, (answer _ _).mpr both.2⟩) refilled₀ refilled₁ untouched₀ untouched₁
    have plain' : ({ r with address := address, len := len } : Request).isDbg = false := plain
    rw [busAdaptor_first_byte plain', busAdaptor_first_byte plain'] at same
    exact absurd same (by decide)
  · rintro ⟨missed, closed⟩ delivered ahbData
    obtain ⟨c', rest, refilled, untouched⟩ := refill_untouched missed fun both =>
      closed ⟨both.1, (answer delivered ahbData).mp both.2⟩
    exact ⟨c', _, by rw [memRead, path]; exact congrArg (Option.map _) refilled, untouched⟩

/-- A read leaves the lines as they are exactly when it causes no refill, or a refill that hits no line
and is not allocated. -/
theorem leavesLines_iff : LeavesLines mcfg bus cfg ccr c s r data reply ↔
    ∀ hit address len, memReadLookup cfg ccr c r = .refill hit address len →
      hit = none ∧ ¬ (checkMode cfg ccr &&& 0x2 ≠ 0 ∧
        AnsweredCacheable mcfg bus s { r with address := address, len := len } reply) := by
  cases path : memReadLookup cfg ccr c r with
  | hit way =>
    constructor
    · intro _ hit address len refill
      cases refill
    · intro _ delivered ahbData
      exact ⟨(memReadHit cfg c r data reply way).1, _, by rw [memRead, path],
        memReadHit_untouched way⟩
  | bypass =>
    constructor
    · intro _ hit address len refill
      cases refill
    · intro _ delivered ahbData
      exact ⟨{ c with bypassops := c.bypassops + 1 }, _, by rw [memRead, path], fun _ => rfl⟩
  | refill hit address len =>
    rw [leavesLines_of_refill path]
    constructor
    · intro misses hit' address' len' refill
      injection refill with hits addresses lens
      subst hits addresses lens
      exact misses
    · intro all
      exact all hit address len rfl

end Reads

end Socrocket.MmuCache
