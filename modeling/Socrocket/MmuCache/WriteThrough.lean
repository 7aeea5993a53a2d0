/- Socrocket/MmuCache/WriteThrough
   digest: A data cache over a byte memory stays coherent through accesses, flushes and snoops. -/

import Socrocket.Base.Run
import Socrocket.MmuCache.CacheAccess

set_option autoImplicit false
set_option relaxedAutoImplicit false

namespace Socrocket.MmuCache

open Socrocket.Base.ByteMemory
open Socrocket.Base.Run

/-- A component behind the memory interface that is one byte memory: reads return the requested
bytes and change nothing, writes change the requested bytes, the cacheability of an address is
fixed, and another bus master writes the same bytes. -/
structure MemoryBacked {σ : Type} (m : MemIf σ) where
  bytes : σ → Memory 32
  cacheableAt : BitVec 32 → Bool
  busWrite : σ → BlockWrite 32 → σ
  memRead_bytes : ∀ s r data reply, bytes (m.memRead s r data reply).state = bytes s
  memRead_data : ∀ s r data reply, (m.memRead s r data reply).data =
    memcpy data (bytesAt (bytes s) r.address) r.len.toNat
  memRead_cacheable : ∀ s r data reply,
    (m.memRead s r data reply).isCacheable = cacheableAt r.address
  memWrite_bytes : ∀ s r data reply, bytes (m.memWrite s r data reply).1 =
    writeBytes (bytes s) r.address data r.len.toNat
  busWrite_bytes : ∀ s w, bytes (busWrite s w) = w.apply (bytes s)

/-- A plain byte memory behind the interface. -/
def plainMemory (cacheableAt : BitVec 32 → Bool) : MemIf (Memory 32) where
  memRead mem r data reply :=
    ⟨mem, memcpy data (bytesAt mem r.address) r.len.toNat, reply, cacheableAt r.address⟩
  memWrite mem r data reply := (writeBytes mem r.address data r.len.toNat, reply)

def plainMemory_backed (cacheableAt : BitVec 32 → Bool) : MemoryBacked (plainMemory cacheableAt) where
  bytes := id
  cacheableAt := cacheableAt
  busWrite mem w := w.apply mem
  memRead_bytes _ _ _ _ := rfl
  memRead_data _ _ _ _ := rfl
  memRead_cacheable _ _ _ _ := rfl
  memWrite_bytes _ _ _ _ := rfl
  busWrite_bytes _ _ := rfl

/-- The configuration of the data cache. -/
structure Config.IsDataCache (cfg : Config) : Prop where
  cacheType : cfg.cacheType = .dcache
  linefetch : cfg.newLinefetchEn = true
  no_burst : cfg.burstEn = 0

/-- A cache, the memory behind it and the cache control register. -/
structure CacheSystem (σ : Type) where
  cache : VectorCache
  memory : σ
  ccr : BitVec 32

/-- What happens to a cache: accesses of its processor, flushes, writes of the control register,
and writes of another bus master with the snoop that follows. -/
inductive CacheEvent where
  | memRead (r : Request) (data : Buffer) (reply : Reply) (ahbData : Buffer)
  | memWrite (r : Request) (data : Buffer) (reply : Reply)
  | flush (reply : Reply)
  | writeCcr (ccr : BitVec 32)
  | busWrite (w : BlockWrite 32)

section System

variable {σ : Type} (cfg : Config) (m : MemIf σ)

/-- Perform one event. -/
def cacheStep {m : MemIf σ} (mem : MemoryBacked m) (s : CacheSystem σ) :
    CacheEvent → Option (CacheSystem σ)
  | .memRead r data reply ahbData =>
    (VectorCache.memRead cfg m s.ccr s.cache s.memory r data reply ahbData).map fun t =>
      { s with cache := t.1, memory := t.2.1 }
  | .memWrite r data reply =>
    let t := VectorCache.memWrite cfg m s.ccr s.cache s.memory r data reply
    some { s with cache := t.1, memory := t.2.1 }
  | .flush reply => some { s with cache := (VectorCache.flush cfg s.cache reply).1 }
  | .writeCcr ccr => some { s with ccr := ccr }
  | .busWrite w =>
    (VectorCache.snoopInvalidate cfg s.ccr s.cache ⟨w.base, BitVec.ofNat 32 w.len⟩).map fun c =>
      { s with cache := c, memory := mem.busWrite s.memory w }

/-- The cache is frozen or enabled. -/
def Searching (ccr : BitVec 32) : Prop :=
  VectorCache.checkMode cfg ccr = 0x1 ∨ VectorCache.checkMode cfg ccr = 0x3

/-- Accesses of 1, 2, 4 or 8 bytes inside one line that do not bypass the MMU. -/
def PlainAccess (r : Request) : Prop :=
  r.asi ≠ 0x1c ∧ (r.len = 1 ∨ r.len = 2 ∨ r.len = 4 ∨ r.len = 8) ∧
    cfg.InsideLine r.address r.len.toNat

/-- The events under which a data cache is kept coherent. -/
def Admissible : CacheEvent → Prop
  | .memRead r _ _ _ => PlainAccess cfg r
  | .memWrite r _ _ => PlainAccess cfg r
  | .flush _ => True
  | .writeCcr ccr => Searching cfg ccr
  | .busWrite w => w.base.toNat % 4 = 0 ∧ w.len % 4 = 0 ∧ w.base.toNat + w.len < 2 ^ 32

/-- All lines are invalid, unlocked and not marked as replaced. -/
def ColdStart (c : VectorCache) : Prop :=
  ∀ pos, (c.cacheMem pos).valid = 0 ∧ (c.cacheMem pos).lock = 0 ∧ (c.cacheMem pos).lrr = 0

/-- Every valid line shows memory, and the cache is frozen or enabled. -/
structure Coherent {m : MemIf σ} (mem : MemoryBacked m) (s : CacheSystem σ) : Prop where
  shows : VectorCache.Shows cfg s.cache (mem.bytes s.memory) fun _ => False
  searching : Searching cfg s.ccr

variable {cfg} {m} {mem : MemoryBacked m} {s : CacheSystem σ}

theorem shows_of_coldStart {c : VectorCache} (cold : ColdStart c) (view : Memory 32) :
    VectorCache.Shows cfg c view fun _ => False := by
  have invalid (i : BitVec 32) (w : ℕ) : (VectorCache.lookupLine cfg c i w).valid &&& 0x1 = 0 := by
    rw [show (VectorCache.lookupLine cfg c i w).valid = 0 from (cold _).1]
    rfl
  have empty (a : BitVec 32) (w : ℕ) : ¬ VectorCache.Holds cfg c a w := fun held =>
    held.2.2 (invalid _ w)
  exact
    { single := fun a v w held => absurd held (empty a v)
      atag_lt := fun i w _ _ valid => absurd (invalid i w) valid
      unused := fun i w _ _ _ => invalid i w
      unlocked := fun i w _ _ => (cold _).2.1
      replaceable := fun _ i _ => .inl (cold _).2.2
      shows := fun a w held => absurd held (empty a w) }

theorem Searching.low_bit {ccr : BitVec 32} (h : Searching cfg ccr) :
    VectorCache.checkMode cfg ccr &&& 0x1 ≠ 0 := by
  rcases h with h | h <;> rw [h] <;> decide

theorem Searching.any_bit {ccr : BitVec 32} (h : Searching cfg ccr) :
    VectorCache.checkMode cfg ccr &&& 0x3 ≠ 0 := by
  rcases h with h | h <;> rw [h] <;> decide

theorem memRead_spec (linefetch : cfg.newLinefetchEn = true) {c : VectorCache} {t : σ}
    (inv : VectorCache.Shows cfg c (mem.bytes t) fun _ => False) {r : Request}
    (inside : cfg.InsideLine r.address r.len.toNat) (ccr : BitVec 32) (data : Buffer) (reply : Reply)
    (ahbData : Buffer) :
    ∃ c' t' reply', VectorCache.memRead cfg m ccr c t r data reply ahbData =
        some (c', t', memcpy data (bytesAt (mem.bytes t) r.address) r.len.toNat, reply') ∧
      mem.bytes t' = mem.bytes t ∧ VectorCache.Shows cfg c' (mem.bytes t) fun _ => False := by
  unfold VectorCache.memRead
  cases path : VectorCache.memReadLookup cfg ccr c r with
  | hit way =>
    have held := VectorCache.memReadLookup_hit linefetch path
    have answer := inv.read_hit held inside (fun _ _ => not_false) data reply
    exact ⟨_, t, _, by dsimp only; rw [answer], rfl, inv.after_read_hit r way data reply⟩
  | refill cacheHit ahbAddress ahbLen =>
    obtain ⟨rfl, rfl, ready⟩ :=
      VectorCache.memReadLookup_refill linefetch inv.toWellTagged path
    dsimp only
    generalize request : ({ r with
      address := cfg.lineAddress r.address, len := BitVec.ofNat 32 cfg.mBytesperline } : Request) = q
    have fetched : ∀ b, cfg.SameLine r.address b →
        (m.memRead t q ahbData reply).data (cfg.getOffset b).toNat = mem.bytes t b := by
      intro b line
      rw [mem.memRead_data, ← request]
      dsimp only
      rw [cfg.toNat_mBytesperline, memcpy_of_lt (cfg.getOffset_lt b),
        ← cfg.distance_lineAddress line, bytesAt_distance]
    obtain ⟨c', reply', refilled, shown⟩ := inv.read_refill linefetch ready inside fetched ccr data
      (m.memRead t q ahbData reply).reply (m.memRead t q ahbData reply).isCacheable
    exact ⟨c', _, reply', by rw [refilled]; rfl, mem.memRead_bytes .., shown⟩
  | bypass =>
    exact ⟨{ c with bypassops := c.bypassops + 1 }, _, _, by dsimp only; rw [mem.memRead_data],
      mem.memRead_bytes t r data reply, inv.of_cacheMem rfl⟩

theorem memWrite_spec (linefetch : cfg.newLinefetchEn = true) (inv : Coherent cfg mem s)
    {r : Request} (plain : PlainAccess cfg r) (data : Buffer) (reply : Reply) :
    mem.bytes (VectorCache.memWrite cfg m s.ccr s.cache s.memory r data reply).2.1 =
        writeBytes (mem.bytes s.memory) r.address data r.len.toNat ∧
      VectorCache.Shows cfg (VectorCache.memWrite cfg m s.ccr s.cache s.memory r data reply).1
        (writeBytes (mem.bytes s.memory) r.address data r.len.toNat) fun _ => False := by
  unfold VectorCache.memWrite
  rw [if_pos ⟨plain.1, inv.searching.low_bit⟩]
  exact ⟨mem.memWrite_bytes .., inv.shows.write_update linefetch plain.2.2 data reply⟩

theorem snoop_spec (linefetch : cfg.newLinefetchEn = true) (inv : Coherent cfg mem s)
    {w : BlockWrite 32} (aligned : w.base.toNat % 4 = 0) (words : w.len % 4 = 0)
    (room : w.base.toNat + w.len < 2 ^ 32) :
    ∃ c, VectorCache.snoopInvalidate cfg s.ccr s.cache ⟨w.base, BitVec.ofNat 32 w.len⟩ = some c ∧
      VectorCache.Shows cfg c (w.apply (mem.bytes s.memory)) fun _ => False := by
  have overwritten : VectorCache.Shows cfg s.cache (w.apply (mem.bytes s.memory))
      fun a => InRange w.base w.len a :=
    inv.shows.weaken (fun _ h => h.elim) fun a fresh => writeBytes_of_not_inRange fresh
  have last : w.base.toNat + 4 * ((w.len + 3) / 4) < 2 ^ 32 := by omega
  exact ⟨_, VectorCache.snoopInvalidate_eq s.cache inv.searching.any_bit last,
    overwritten.snoop_range linefetch last (.inl aligned) fun _ hit => hit⟩

/-- Every admissible event is performed and keeps the system coherent. -/
theorem coherent_step (linefetch : cfg.newLinefetchEn = true) (event : CacheEvent)
    (inv : Coherent cfg mem s) (admissible : Admissible cfg event) :
    ∃ t, cacheStep cfg mem s event = some t ∧ Coherent cfg mem t := by
  cases event with
  | memRead r data reply ahbData =>
    obtain ⟨c, t, reply', answer, same, shown⟩ :=
      memRead_spec linefetch inv.shows admissible.2.2 s.ccr data reply ahbData
    exact ⟨{ s with cache := c, memory := t }, by rw [cacheStep, answer]; rfl,
      by rw [same]; exact shown, inv.searching⟩
  | memWrite r data reply =>
    obtain ⟨bytes, shown⟩ := memWrite_spec linefetch inv admissible data reply
    exact ⟨_, rfl, by rw [bytes]; exact shown, inv.searching⟩
  | flush reply =>
    exact ⟨_, rfl, VectorCache.Shows.flush_all inv.shows.toWellTagged reply _ _, inv.searching⟩
  | writeCcr ccr => exact ⟨_, rfl, inv.shows, admissible⟩
  | busWrite w =>
    obtain ⟨c, snooped, shown⟩ := snoop_spec linefetch inv admissible.1 admissible.2.1 admissible.2.2
    exact ⟨{ s with cache := c, memory := mem.busWrite s.memory w },
      by rw [cacheStep, snooped]; rfl, by rw [mem.busWrite_bytes]; exact shown, inv.searching⟩

/-- Every line whose first valid bit is set holds the memory bytes of its addresses. -/
def LinesShowMemory (cfg : Config) {m : MemIf σ} (mem : MemoryBacked m) (s : CacheSystem σ) : Prop :=
  ∀ (idx offset : BitVec 32) (way : ℕ), idx.toNat < cfg.mNumberOfVectors → way ≤ cfg.mSets →
    offset.toNat < cfg.mBytesperline →
    (VectorCache.lookupLine cfg s.cache idx way).valid &&& 0x1 ≠ 0 →
    (VectorCache.lookupLine cfg s.cache idx way).entry offset.toNat = mem.bytes s.memory
      (cfg.getAddress (VectorCache.lookupLine cfg s.cache idx way).atag idx offset)

/-- Every plain read ends and returns the memory bytes of its addresses. -/
def ReadsAnswerMemory (cfg : Config) {m : MemIf σ} (mem : MemoryBacked m) (s : CacheSystem σ) : Prop :=
  ∀ r buffer reply ahbData, PlainAccess cfg r →
    ∃ c t buffer' reply',
      VectorCache.memRead cfg m s.ccr s.cache s.memory r buffer reply ahbData =
        some (c, t, buffer', reply') ∧
      ∀ i < r.len.toNat, buffer' i = mem.bytes s.memory (r.address + BitVec.ofNat 32 i)

/-- Write-through coherence: every run of admissible events exists, every valid line it reaches
holds the memory bytes of its addresses, and every read there returns memory. -/
theorem write_through_coherence (dcache : cfg.IsDataCache) (mem : MemoryBacked m)
    (start : CacheSystem σ) (cold : ColdStart start.cache) (searching : Searching cfg start.ccr)
    (events : List CacheEvent) (admissible : ∀ e ∈ events, Admissible cfg e) :
    ∃ s, run (cacheStep cfg mem) start events = some s ∧ LinesShowMemory cfg mem s ∧
      ReadsAnswerMemory cfg mem s := by
  have init : Coherent cfg mem start := ⟨shows_of_coldStart cold _, searching⟩
  obtain ⟨s, reached, inv⟩ := run_completes
    (fun s e inv good => coherent_step dcache.linefetch e inv good) init
    (along_of_forall start admissible)
  refine ⟨s, reached, ?_, ?_⟩
  · intro idx offset way hidx hway hoffset valid
    exact inv.shows.line_bytes hidx hway hoffset valid
  · intro r buffer reply ahbData plain
    obtain ⟨c, t, reply', answer, -, -⟩ :=
      memRead_spec dcache.linefetch inv.shows plain.2.2 s.ccr buffer reply ahbData
    exact ⟨c, t, _, reply', answer, fun i hi => memcpy_of_lt hi⟩

end System

/-- A two way data cache of 1 kB a way with lines of four words and LRU replacement. -/
def smallDataCache : Config where
  cacheType := .dcache
  burstEn := 0
  newLinefetchEn := true
  sets := 2
  setsize := 1
  linesize := 4
  repl := 1
  sets_range := by decide
  linesize_range := by decide
  setsize_range := by decide
  lrr_two_way := by decide
  direct_one_way := by decide
  repl_range := by decide

theorem smallDataCache_isDataCache : smallDataCache.IsDataCache := ⟨rfl, rfl, rfl⟩

/-- The cache memory right after construction. -/
def resetCache : VectorCache where
  cacheMem _ := ⟨0, 0, 0, 0, 0, fun _ => 0⟩
  mPseudoRand := 0
  rhits _ := 0
  rmisses := 0
  whits _ := 0
  wmisses := 0
  bypassops := 0

theorem resetCache_cold : ColdStart resetCache := fun _ => ⟨rfl, rfl, rfl⟩

/-- An enabled data cache over a zeroed memory. -/
def smallSystem : CacheSystem (Memory 32) := ⟨resetCache, fun _ => 0, 0xc⟩

/-- A load, a store to the line it filled, a write of another master and a switch to frozen. -/
def smallEvents : List CacheEvent :=
  [.memRead ⟨0x40000010, 0xa, 4, false, false⟩ (fun _ => 0) ⟨0, false⟩ fun _ => 0,
    .memWrite ⟨0x40000014, 0xa, 8, false, false⟩ (fun i => BitVec.ofNat 8 i) ⟨0, false⟩,
    .busWrite ⟨0x40000000, fun _ => 0xff, 24⟩, .writeCcr 0x4]

theorem write_through_coherence_small :
    ∃ s, run (cacheStep smallDataCache (plainMemory_backed fun _ => true)) smallSystem smallEvents =
        some s ∧ LinesShowMemory smallDataCache (plainMemory_backed fun _ => true) s ∧
      ReadsAnswerMemory smallDataCache (plainMemory_backed fun _ => true) s :=
  write_through_coherence smallDataCache_isDataCache (plainMemory_backed fun _ => true) smallSystem
    resetCache_cold (.inr (by decide)) smallEvents (by
      intro e member
      simp only [smallEvents, List.mem_cons, List.not_mem_nil, or_false] at member
      rcases member with rfl | rfl | rfl | rfl
      · exact ⟨by decide, by decide, by decide⟩
      · exact ⟨by decide, by decide, by decide⟩
      · exact ⟨by decide, by decide, by decide⟩
      · exact .inl (by decide))

end Socrocket.MmuCache
