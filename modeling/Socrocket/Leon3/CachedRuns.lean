/- Socrocket/Leon3/CachedRuns
   digest: A processor with caches computes what a processor on a big endian memory computes. -/

import Socrocket.Leon3.Accesses
import Socrocket.Leon3.CachedBus
import Socrocket.MmuCache.CodeRegion

set_option autoImplicit false
set_option relaxedAutoImplicit false

namespace Socrocket.Leon3

open Base Base.ByteMemory Base.ByteOrder Base.Run MmuCache

variable {σ : Type}

/-! ## The memory that the programs see -/

/-- The bytes of a double word: each half with its highest byte first, and the low half first. -/
def halves (x : BitVec 64) : Buffer := fun i =>
  if i < 4 then reversed 4 (bytes (x.setWidth 32)) i else
    reversed 4 (bytes ((x >>> 32).setWidth 32)) (i - 4)

/-- A store to the spaces of the memory. The others have no bytes. -/
def storeBytes (m : Memory 32) (a asi : BitVec 32) (n : ℕ) (b : Buffer) : Reply (Memory 32) Unit :=
  ⟨(), none, if addressSpace asi = .memory then writeBytes m a b n else m⟩

/-- A byte memory that holds numbers with their highest byte first. -/
def bigEndian : MemoryInterface (Memory 32) where
  readInstr a _ _ m := ⟨big 4 (bytesAt m a), none, m⟩
  readDword a _ _ _ m := ⟨big 4 (skip (bytesAt m a) 4) ++ big 4 (bytesAt m a), none, m⟩
  readWord a _ _ _ m := ⟨big 4 (bytesAt m a), none, m⟩
  readHalf a _ _ _ m := ⟨big 2 (bytesAt m a), none, m⟩
  readByte a _ _ _ m := ⟨big 1 (bytesAt m a), none, m⟩
  writeDword a x asi _ _ m := storeBytes m a asi 8 (halves x)
  writeWord a x asi _ _ m := storeBytes m a asi 4 (reversed 4 (bytes x))
  writeHalf a x asi _ _ m := storeBytes m a asi 2 (reversed 2 (bytes x))
  writeByte a x asi _ _ m := storeBytes m a asi 1 (bytes x)

namespace Controller

variable (c : Controller σ) (code : BitVec 32 → Prop)

/-! ## What the caches keep -/

/-- The instruction cache fetches words, the data cache fetches lines. -/
structure Constructed : Prop where
  icache : c.icache.newLinefetchEn = false
  dcache : c.dcache.IsDataCache

/-- The data cache is switched off, and holds nothing. -/
def Unused (s : Caches σ) : Prop :=
  VectorCache.checkMode c.dcache s.ccr &&& 0x1 = 0 ∧
    ∀ a way, ¬ VectorCache.Holds c.dcache s.dcache a way

/-- The caches that are there show memory, the instruction cache that of the code, and the data
cache is searched or unused. -/
structure Kept (mem : MemoryBacked c.port) (s : Caches σ) : Prop where
  icache : c.generics.icen = true → ShowsRegion c.icache s.icache (mem.bytes s.memory) code
  dcache : c.generics.dcen = 1 → VectorCache.Shows c.dcache s.dcache (mem.bytes s.memory) fun _ => False
  searching : c.generics.dcen = 1 → Searching c.dcache s.ccr ∨ c.Unused s

/-- No scratchpad has the address. -/
def OffChip (a : BitVec 32) : Prop := ∀ side, ¬ c.generics.Selects a side

/-- The accesses that the caches do not show: aligned ones to memory where no scratchpad is, fetches
from the lines of the code and stores beside it, flushes, and writes of the control register that
flush the data cache or leave it searched. -/
def Covered : Access → Prop
  | .fetch a => ¬ c.generics.Selects a .icache ∧
      (c.generics.icen = true → a.toNat % 4 = 0 ∧ ∀ b, c.icache.SameLine a b → code b)
  | .read n a asi => addressSpace asi = .memory ∧ c.OffChip a ∧ a.toNat % n = 0
  | .write n a asi x =>
    match addressSpace asi with
    | .memory => c.OffChip a ∧ a.toNat % n = 0 ∧
        (c.generics.icen = true → ∀ b, ByteMemory.InRange a n b → ¬ code b)
    | .flushBoth | .flushIcache | .flushDcache => True
    | .systemRegisters => n = 4 ∧ a = 0 ∧
        (x &&& 0x400000 ≠ 0 ∨ VectorCache.checkMode c.dcache (x &&& 0xff9f3fff) &&& 0x1 ≠ 0)
    | _ => False

variable {c code} {mem : MemoryBacked c.port} {s : Caches σ}

theorem searching_of_mode (dcache : c.dcache.IsDataCache) {ccr : BitVec 32}
    (mode : VectorCache.checkMode c.dcache ccr &&& 0x1 ≠ 0) : Searching c.dcache ccr := by
  have value : VectorCache.checkMode c.dcache ccr = (ccr >>> 2) &&& 0x3 := by
    unfold VectorCache.checkMode
    rw [dcache.cacheType]
  unfold Searching
  rw [value] at mode ⊢
  have low (x : BitVec 32) : (x &&& 0x3).toNat = x.toNat % 4 := by
    rw [BitVec.toNat_and]
    exact Nat.and_two_pow_sub_one_eq_mod x.toNat 2
  have odd (x : BitVec 32) : (x &&& 0x1).toNat = x.toNat % 2 := by
    rw [BitVec.toNat_and]
    exact Nat.and_two_pow_sub_one_eq_mod x.toNat 1
  have set : ((ccr >>> 2) &&& 0x3).toNat % 2 ≠ 0 :=
    fun even => mode (BitVec.eq_of_toNat_eq ((odd _).trans even))
  rw [low] at set
  have cases' : (ccr >>> 2).toNat % 4 = 1 ∨ (ccr >>> 2).toNat % 4 = 3 := by omega
  exact cases'.imp (fun one => BitVec.eq_of_toNat_eq ((low _).trans one)) fun three =>
    BitVec.eq_of_toNat_eq ((low _).trans three)

theorem kept_of_coldStart (built : c.Constructed) (icache : ColdStart s.icache)
    (dcache : ColdStart s.dcache) :
    c.Kept code mem s := by
  refine ⟨fun _ => showsRegion_of_coldStart icache, fun _ => shows_of_coldStart dcache _, fun _ => ?_⟩
  by_cases searched : VectorCache.checkMode c.dcache s.ccr &&& 0x1 = 0
  · refine .inr ⟨searched, fun a way held => held.2.2 ?_⟩
    rw [show (VectorCache.lookupLine c.dcache s.dcache (c.dcache.getIdx a) way).valid =
      0 from (dcache _).1]
    rfl
  · exact .inl (searching_of_mode built.dcache searched)

theorem insideLine_of_aligned (cfg : MmuCache.Config) {a : BitVec 32} {n : ℕ}
    (length : n = 1 ∨ n = 2 ∨ n = 4 ∨ n = 8)
    (aligned : a.toNat % n = 0) : cfg.InsideLine a n := by
  have offset := cfg.getOffset_toNat a
  unfold Config.InsideLine
  rw [offset]
  rcases cfg.linesize_cases with ⟨-, -, h⟩ | ⟨-, -, h⟩ <;> rw [h] <;>
    rcases length with rfl | rfl | rfl | rfl <;> omega

theorem Kept.icache_write (kept : c.Kept code mem s) {a : BitVec 32} {n : ℕ} {data : Buffer}
    (beside : c.generics.icen = true → ∀ b, ByteMemory.InRange a n b → ¬ code b)
    (present : c.generics.icen = true) :
    ShowsRegion c.icache s.icache (writeBytes (mem.bytes s.memory) a data n) code :=
  (kept.icache present).of_view fun b inside =>
    writeBytes_of_not_inRange fun range => beside present b range inside

theorem not_holds_flush (cfg : MmuCache.Config) (d : VectorCache) (a : BitVec 32) (way : ℕ) :
    ¬ VectorCache.Holds cfg (VectorCache.flush cfg d reply).1 a way := by
  rintro ⟨within, -, valid⟩
  have core := VectorCache.core_flush (c := d) reply
    (lt_of_lt_of_le (cfg.getIdx_lt a) cfg.two_pow_mIdxBits_le) within
  have cleared : (VectorCache.lookupLine cfg (VectorCache.flush cfg d reply).1
      (cfg.getIdx a) way).valid = 0 :=
    congrArg LineCore.valid core
  rw [cleared] at valid
  exact valid rfl

theorem shows_of_unused {d d' : VectorCache} {view : Memory 32}
    (shows : VectorCache.Shows c.dcache d view fun _ => False)
    (empty : ∀ a way, ¬ VectorCache.Holds c.dcache d a way)
    (same : d'.cacheMem = d.cacheMem) (view' : Memory 32) :
    VectorCache.Shows c.dcache d' view' fun _ => False :=
  (VectorCache.Shows.mk shows.toWellTagged fun a way held => absurd held (empty a way)).of_cacheMem same

theorem not_holds_of_cacheMem {cfg : MmuCache.Config} {d d' : VectorCache}
    (empty : ∀ a way, ¬ VectorCache.Holds cfg d a way)
    (same : d'.cacheMem = d.cacheMem) (a : BitVec 32) (way : ℕ) : ¬ VectorCache.Holds cfg d' a way := by
  intro held
  refine empty a way ?_
  unfold VectorCache.Holds at held ⊢
  simpa only [VectorCache.lookupLine, same] using held

/-! ## The accesses keep it -/

theorem readThrough_spec (kept : c.Kept code mem s) (r : MmuCache.Request) (data : Buffer) :
    ∃ t, c.readThrough s r data = some (t,
      memcpy data (bytesAt (mem.bytes s.memory) r.address) r.len.toNat) ∧
      mem.bytes t.memory = mem.bytes s.memory ∧ (c.Kept code mem t) := by
  have same : mem.bytes (c.port.memRead s.memory r data reply).state = mem.bytes s.memory :=
    mem.memRead_bytes ..
  refine ⟨{ s with memory := (c.port.memRead s.memory r data reply).state }, ?_, same, ?_⟩
  · simp only [readThrough, mem.memRead_data]
  · exact ⟨fun present => same ▸ kept.icache present, fun present =>
      same ▸ kept.dcache present, kept.searching⟩

theorem cacheRead_data (built : c.Constructed) (kept : c.Kept code mem s) {r : MmuCache.Request}
    (inside : c.dcache.InsideLine r.address r.len.toNat) (data : Buffer) :
    ∃ t, c.cacheRead s r data .dcache = some
      (t, memcpy data (bytesAt (mem.bytes s.memory) r.address) r.len.toNat) ∧
      mem.bytes t.memory = mem.bytes s.memory ∧ c.Kept code mem t := by
  by_cases present : c.generics.dcen = 1
  · rcases kept.searching present with searching | unused
    · obtain ⟨d, m, reply', answer, same, shown⟩ :=
        memRead_spec built.dcache.linefetch (kept.dcache present)
        inside s.ccr data reply c.ahbData
      refine ⟨{ s with dcache := d, memory := m }, ?_, same, fun h => same ▸ kept.icache h, fun _ =>
        same ▸ shown,
        fun _ => .inl searching⟩
      simp only [cacheRead, if_pos present, answer, Option.map_some]
    · have path : VectorCache.memReadLookup c.dcache s.ccr s.dcache r = .bypass :=
        if_neg fun searched => searched.2.2 unused.1
      have same : mem.bytes (c.port.memRead s.memory r data reply).state = mem.bytes s.memory :=
        mem.memRead_bytes ..
      refine ⟨{ s with dcache := { s.dcache with bypassops := s.dcache.bypassops + 1 },
                       memory := (c.port.memRead s.memory r data reply).state }, ?_, same,
        fun h => same ▸ kept.icache h, fun _ => same ▸ (kept.dcache present).of_cacheMem rfl,
        fun _ => .inr ⟨unused.1, not_holds_of_cacheMem unused.2 rfl⟩⟩
      simp only [cacheRead, if_pos present, VectorCache.memRead, path, Option.map_some,
        mem.memRead_data]
  · simp only [cacheRead, if_neg present]
    exact readThrough_spec kept r data

theorem cacheRead_instr (built : c.Constructed) (kept : c.Kept code mem s) {r : MmuCache.Request}
    (word : r.len = 4)
    (space : r.asi ≠ 0x1c)
    (line : c.generics.icen = true → r.address.toNat % 4 = 0 ∧ ∀ b, c.icache.SameLine r.address b →
      code b)
    (data : Buffer) :
    ∃ t, c.cacheRead s r data .icache = some
      (t, memcpy data (bytesAt (mem.bytes s.memory) r.address) r.len.toNat) ∧
      mem.bytes t.memory = mem.bytes s.memory ∧ c.Kept code mem t := by
  by_cases present : c.generics.icen = true
  · obtain ⟨aligned, region⟩ := line present
    obtain ⟨i, m, reply', answer, same, shown⟩ :=
      fetch_spec built.icache (kept.icache present) word aligned space
      region s.ccr data reply c.ahbData
    refine ⟨{ s with icache := i, memory := m }, ?_, same, fun _ => same ▸ shown, fun h =>
      same ▸ kept.dcache h,
      kept.searching⟩
    simp only [cacheRead, if_pos present, answer, Option.map_some]
  · simp only [cacheRead, if_neg present]
    exact readThrough_spec kept r data

theorem cacheWrite_spec (built : c.Constructed) (kept : c.Kept code mem s) {r : MmuCache.Request}
    (space : r.asi ≠ 0x1c)
    (length : r.len = 1 ∨ r.len = 2 ∨ r.len = 4 ∨ r.len = 8)
    (inside : c.dcache.InsideLine r.address r.len.toNat)
    (beside : c.generics.icen = true → ∀ b, ByteMemory.InRange r.address r.len.toNat b → ¬ code b)
    (data : Buffer) :
    mem.bytes (c.cacheWrite s r data).memory = writeBytes
      (mem.bytes s.memory) r.address data r.len.toNat ∧
      c.Kept code mem (c.cacheWrite s r data) := by
  by_cases present : c.generics.dcen = 1
  · rcases kept.searching present with searching | unused
    · obtain ⟨written, shown⟩ := memWrite_spec (s := ⟨s.dcache, s.memory, s.ccr⟩) built.dcache.linefetch
        ⟨kept.dcache present, searching⟩ ⟨space, length, inside⟩ data reply
      simp only [cacheWrite, if_pos present]
      refine ⟨written, fun h => ?_, fun _ => ?_, fun _ => .inl searching⟩
      · dsimp only
        rw [written]
        exact kept.icache_write beside h
      · dsimp only
        rw [written]
        exact shown
    · have bypassed : ¬ (r.asi ≠ 0x1c ∧ VectorCache.checkMode c.dcache s.ccr &&& 0x1 ≠ 0) :=
        fun searched => searched.2 unused.1
      have written : mem.bytes (c.port.memWrite s.memory r data reply).1 =
        writeBytes (mem.bytes s.memory) r.address data r.len.toNat := mem.memWrite_bytes ..
      simp only [cacheWrite, if_pos present, VectorCache.memWrite, if_neg bypassed]
      refine ⟨written, fun h => ?_, fun _ => ?_, fun _ =>
        .inr ⟨unused.1, not_holds_of_cacheMem unused.2 rfl⟩⟩
      · dsimp only
        rw [written]
        exact kept.icache_write beside h
      · refine shows_of_unused (kept.dcache present) unused.2 ?_ _
        rfl
  · have written : mem.bytes (c.port.memWrite s.memory r data reply).1 =
      writeBytes (mem.bytes s.memory) r.address data r.len.toNat := mem.memWrite_bytes ..
    simp only [cacheWrite, if_neg present]
    refine ⟨written, fun h => ?_, fun h => absurd h present, fun h => absurd h present⟩
    dsimp only
    rw [written]
    exact kept.icache_write beside h

theorem flush_spec (kept : c.Kept code mem s) (side : CacheType) :
    mem.bytes (c.flush s side).memory = mem.bytes s.memory ∧ c.Kept code mem (c.flush s side) := by
  cases side with
  | icache =>
    by_cases present : c.generics.icen = true
    · simp only [flush, if_pos present]
      exact ⟨trivial, fun h => (kept.icache h).flushed reply, kept.dcache, kept.searching⟩
    · simp only [flush, if_neg present]
      exact ⟨trivial, kept⟩
  | dcache =>
    by_cases present : c.generics.dcen = 1
    · simp only [flush, if_pos present]
      refine ⟨trivial, kept.icache, fun h => ?_, fun h => (kept.searching h).imp_right fun unused => ?_⟩
      · exact VectorCache.Shows.flush_all (kept.dcache h).toWellTagged reply _ _
      · exact ⟨unused.1, not_holds_flush _ _⟩
    · simp only [flush, if_neg present]
      exact ⟨trivial, kept⟩

theorem dcache_flush_icache : (c.flush s .icache).dcache = s.dcache := by
  unfold flush
  dsimp only
  split <;> rfl

theorem writeCcr_spec (built : c.Constructed) (kept : c.Kept code mem s) {x : BitVec 32}
    (mode : x &&& 0x400000 ≠ 0 ∨ VectorCache.checkMode c.dcache (x &&& 0xff9f3fff) &&& 0x1 ≠ 0) :
    mem.bytes (c.writeCcr s (bytes (swapEndianess 4 x))).memory = mem.bytes s.memory ∧
      c.Kept code mem (c.writeCcr s (bytes (swapEndianess 4 x))) := by
  obtain ⟨u, dflushed⟩ : ∃ u, (if x &&& 0x400000 ≠ 0 then c.flush s .dcache else s) = u := ⟨_, rfl⟩
  obtain ⟨t, flushed⟩ : ∃ t, (if x &&& 0x200000 ≠ 0 then c.flush u .icache else u) = t := ⟨_, rfl⟩
  have result : c.writeCcr s (bytes (swapEndianess 4 x)) = { t with ccr := x &&& 0xff9f3fff } := by
    simp only [writeCcr, little_bytes (n := 4) (swapEndianess 4 x), swapEndianess_swap, dflushed,
      flushed]
  -- the data side is flushed where its bit says so
  have first : mem.bytes u.memory = mem.bytes s.memory ∧ c.Kept code mem u := by
    rw [← dflushed]
    split
    · exact flush_spec kept .dcache
    · exact ⟨rfl, kept⟩
  have second : mem.bytes t.memory = mem.bytes u.memory ∧ c.Kept code mem t ∧ t.dcache = u.dcache := by
    rw [← flushed]
    split
    · exact ⟨(flush_spec first.2 .icache).1, (flush_spec first.2 .icache).2, dcache_flush_icache⟩
    · exact ⟨rfl, first.2, rfl⟩
  rw [result]
  refine ⟨second.1.trans first.1, second.2.1.icache, second.2.1.dcache, fun present => ?_⟩
  by_cases searched : VectorCache.checkMode c.dcache (x &&& 0xff9f3fff) &&& 0x1 = 0
  · have bit : x &&& 0x400000 ≠ 0 := mode.resolve_right (not_not.mpr searched)
    refine .inr ⟨searched, fun a way => ?_⟩
    show ¬ VectorCache.Holds c.dcache t.dcache a way
    rw [second.2.2, ← dflushed, if_pos bit]
    simp only [flush, if_pos present]
    exact not_holds_flush _ _ a way
  · exact .inl (searching_of_mode built.dcache searched)

theorem busWrite_spec (built : c.Constructed) (kept : c.Kept code mem s) {w : BlockWrite 32}
    (snooped : c.generics.dcen = 1 → c.dsnoop = true) (aligned : w.base.toNat % 4 = 0)
    (words : w.len % 4 = 0)
    (room : w.base.toNat + w.len < 2 ^ 32)
    (beside : c.generics.icen = true → ∀ b, ByteMemory.InRange w.base w.len b → ¬ code b) :
    ∃ t, c.busWrite mem w s = some t ∧ mem.bytes t.memory = w.apply (mem.bytes s.memory) ∧
      c.Kept code mem t := by
  have written : mem.bytes (mem.busWrite s.memory w) = w.apply (mem.bytes s.memory) :=
    mem.busWrite_bytes ..
  have fetched (present : c.generics.icen = true) :
      ShowsRegion c.icache s.icache (w.apply (mem.bytes s.memory)) code :=
    kept.icache_write beside present
  by_cases present : c.generics.dcen = 1
  · rcases kept.searching present with searching | unused
    · obtain ⟨d, forgotten, shown⟩ := snoop_spec
        (s := ⟨s.dcache, s.memory, s.ccr⟩) built.dcache.linefetch
        ⟨kept.dcache present, searching⟩ aligned words room
      refine ⟨{ s with memory := mem.busWrite s.memory w, dcache := d }, ?_, written, fun h =>
        ?_, fun _ => ?_,
        fun _ => .inl searching⟩
      · simp only [busWrite, present, snooped present, and_self, if_true, forgotten, Option.map_some]
      · exact written ▸ fetched h
      · exact written ▸ shown
    · have last : w.base.toNat + 4 * ((w.len + 3) / 4) < 2 ^ 32 := by omega
      by_cases on : VectorCache.checkMode c.dcache s.ccr &&& 0x3 ≠ 0
      · have empty (a : BitVec 32) (way : ℕ) :
            ¬ VectorCache.Holds c.dcache (VectorCache.snoopWords c.dcache
              ((w.len + 3) / 4) s.dcache w.base) a way :=
          fun held => unused.2 a way (VectorCache.holds_snoopWords built.dcache.linefetch held).1
        have overwritten : VectorCache.Shows c.dcache s.dcache (w.apply (mem.bytes s.memory))
            fun a => ByteMemory.InRange w.base w.len a :=
          (kept.dcache present).weaken (fun _ h => h.elim) fun a fresh =>
          writeBytes_of_not_inRange fresh
        refine ⟨{ s with memory := mem.busWrite s.memory w,
                         dcache := VectorCache.snoopWords c.dcache
                           ((w.len + 3) / 4) s.dcache w.base }, ?_, written,
          fun h => ?_, fun _ => ?_, fun _ => .inr ⟨unused.1, empty⟩⟩
        · simp only [busWrite, present, snooped present, and_self, if_true,
            VectorCache.snoopInvalidate_eq s.dcache on last, Option.map_some]
        · exact written ▸ fetched h
        · exact written ▸ overwritten.snoop_range built.dcache.linefetch last
            (.inl aligned) fun _ hit => hit
      · refine ⟨{ s with memory := mem.busWrite s.memory w }, ?_, written, fun h => ?_, fun _ => ?_,
          fun _ => .inr unused⟩
        · simp only [busWrite, present, snooped present, and_self, if_true,
            VectorCache.snoopInvalidate, if_neg on, Option.map_some]
        · exact written ▸ fetched h
        · exact shows_of_unused (kept.dcache present) unused.2 rfl _
  · refine ⟨{ s with memory := mem.busWrite s.memory w }, ?_, written, fun h => ?_, fun h =>
      absurd h present, fun h => absurd h present⟩
    · simp only [busWrite, present, false_and, if_false]
    · exact written ▸ fetched h

/-! ## The accesses of the processor -/

theorem memoryCall_offChip {a : BitVec 32} (off : c.OffChip a)
    (onScratchpad onCache : CacheType → ComponentCall) :
    c.generics.memoryCall a onScratchpad onCache = onCache .dcache := by
  unfold CacheGenerics.memoryCall
  rw [if_neg (off .icache), if_neg (off .dcache)]

theorem execData_single {r : DataRequest} {call : ComponentCall}
    (only : (c.generics.execData r).1 = [call])
    (s : Caches σ) (data : Buffer) : c.execData s r data = c.perform s
    (DataSide.parameters r) data call := by
  simp only [execData, only, List.foldlM_cons, List.foldlM_nil, bind_pure]

theorem write_single {a asi : BitVec 32} {width : Width} {call : ComponentCall}
    (only : (c.generics.execWrite a asi).1 = [call]) (s : Caches σ) (data : Buffer) :
    c.write (request .write a width asi 0 0) data (some s) =
      (c.perform s (DataSide.parameters (request .write a width asi 0 0)) data call).map Prod.fst := by
  have calls : (c.generics.execData (request .write a width asi 0 0)).1 = [call] := only
  rw [write, Option.bind_some, execData_single calls]

theorem fetch_covered (built : c.Constructed) (kept : c.Kept code mem s) {a asi : BitVec 32}
    (space : asi ≠ 0x1c)
    (covered : c.Covered code (.fetch a)) :
    ∃ t, c.fetch a asi (some s) = (memcpy (fun _ => 0) (bytesAt (mem.bytes s.memory) a) 4, some t) ∧
      mem.bytes t.memory = mem.bytes s.memory ∧ c.Kept code mem t := by
  obtain ⟨t, done, same, kept⟩ := cacheRead_instr built kept
    (r := ⟨a, asi, 4, false, false⟩) rfl space covered.2
    fun _ => 0
  refine ⟨t, ?_, same, kept⟩
  have calls : c.generics.execInstr a = [.cacheRead .icache] := if_neg covered.1
  simp only [fetch, Option.bind_some, execInstr, calls, List.foldlM_cons, List.foldlM_nil,
    bind_pure, perform, done]
  rfl

theorem read_covered (built : c.Constructed) (kept : c.Kept code mem s) {a asi : BitVec 32}
    (width : Width)
    (lock : BitVec 32) (covered : c.Covered code (.read width.len.toNat a asi)) :
    ∃ t, c.read (request .read a width asi 0 lock) (some s) =
        (memcpy (fun _ => 0) (bytesAt (mem.bytes s.memory) a) width.len.toNat, some t) ∧
      mem.bytes t.memory = mem.bytes s.memory ∧ c.Kept code mem t := by
  obtain ⟨space, off, aligned⟩ := covered
  have calls : (c.generics.execData (request .read a width asi 0 lock)).1 = [.cacheRead .dcache] := by
    show (c.generics.execRead a asi).1 = _
    simp only [CacheGenerics.execRead, space, memoryCall_offChip off]
  have inside : c.dcache.InsideLine a width.len.toNat := insideLine_of_aligned _ width.length aligned
  obtain ⟨t, done, same, kept⟩ := cacheRead_data built kept
    (r := DataSide.parameters (request .read a width asi 0 lock)) inside fun _ => 0
  refine ⟨t, ?_, same, kept⟩
  rw [read, Option.bind_some, execData_single calls, perform, done]
  rfl

theorem write_covered (built : c.Constructed) (kept : c.Kept code mem s) {a asi x : BitVec 32}
    (width : Width)
    (covered : c.Covered code (.write width.len.toNat a asi x)) {data data' : Buffer}
    (same : ∀ i < width.len.toNat, data i = data' i)
    (word : width = .word → data = bytes (swapEndianess 4 x)) :
    ∃ t, c.write (request .write a width asi 0 0) data (some s) = some t ∧
      mem.bytes t.memory = (storeBytes (mem.bytes s.memory) a asi width.len.toNat data').memory ∧
      c.Kept code mem t := by
  have unstored (other : addressSpace asi ≠ .memory) :
      (storeBytes (mem.bytes s.memory) a asi width.len.toNat data').memory = mem.bytes s.memory :=
      if_neg other
  cases space : addressSpace asi with
  | memory =>
    simp only [Covered, space] at covered
    obtain ⟨off, aligned, beside⟩ := covered
    have calls : (c.generics.execWrite a asi).1 = [.cacheWrite .dcache] := by
      simp only [CacheGenerics.execWrite, space, memoryCall_offChip off]
    have diverted : asi ≠ 0x1c := by
      rintro rfl
      cases space
    have inside : c.dcache.InsideLine a width.len.toNat := insideLine_of_aligned _ width.length aligned
    obtain ⟨written, kept⟩ := cacheWrite_spec built kept
      (r := DataSide.parameters (request .write a width asi 0 0))
      diverted width.len_range inside beside data
    have stored : (storeBytes (mem.bytes s.memory) a asi width.len.toNat data').memory =
        writeBytes (mem.bytes s.memory) a data' width.len.toNat := if_pos space
    exact ⟨_, write_single calls s data,
      (written.trans (writeBytes_data _ _ same)).trans stored.symm, kept⟩
  | flushBoth =>
    have calls : (c.generics.execData (request .write a width asi 0 0)).1 =
        [.flush .icache, .flush .dcache] := by
      show (c.generics.execWrite a asi).1 = _
      simp only [CacheGenerics.execWrite, space]
    have first := flush_spec kept .icache
    have second := flush_spec first.2 .dcache
    refine ⟨_, ?_, (second.1.trans first.1).trans (unstored (by rw [space]; nofun)).symm, second.2⟩
    simp only [write, Option.bind_some, execData, calls, List.foldlM_cons, List.foldlM_nil, perform]
    rfl
  | flushIcache =>
    have calls : (c.generics.execWrite a asi).1 = [.flush .icache] := by
      simp only [CacheGenerics.execWrite, space]
    have flushed := flush_spec kept .icache
    exact ⟨_, write_single calls s data, flushed.1.trans (unstored (by rw [space]; nofun)).symm,
      flushed.2⟩
  | flushDcache =>
    have calls : (c.generics.execWrite a asi).1 = [.flush .dcache] := by
      simp only [CacheGenerics.execWrite, space]
    have flushed := flush_spec kept .dcache
    exact ⟨_, write_single calls s data, flushed.1.trans (unstored (by rw [space]; nofun)).symm,
      flushed.2⟩
  | systemRegisters =>
    simp only [Covered, space] at covered
    obtain ⟨length, rfl, mode⟩ := covered
    have calls : (c.generics.execWrite 0 asi).1 = [.writeCcr] := by
      simp only [CacheGenerics.execWrite, space, if_true]
    have words : width = .word := width.eq_word length
    have written := writeCcr_spec built kept mode
    rw [← word words] at written
    subst words
    exact ⟨_, write_single calls s data, written.1.trans (unstored (by rw [space]; nofun)).symm,
      written.2⟩
  | _ =>
    simp only [Covered, space] at covered

/-! ## The interface of the processor -/

variable (c code mem)

/-- The caches are in a state that they keep. -/
def Holding (s : Option (Caches σ)) : Prop := ∃ t, s = some t ∧ c.Kept code mem t

/-- The memory that the caches show. -/
def shown (s : Option (Caches σ)) : Memory 32 := s.elim (fun _ => 0) fun t => mem.bytes t.memory

variable {c code mem}

theorem answers_fetch (built : c.Constructed) {m : Option (Caches σ)} (inv : c.Holding code mem m)
    {a asi : BitVec 32}
    (space : asi ≠ 0x1c) (covered : c.Covered code (.fetch a)) :
    Answers (c.shown mem) (c.Holding code mem) (c.bus.readInstr a asi 0 m)
      (bigEndian.readInstr a asi 0 (c.shown mem m)) := by
  obtain ⟨s, rfl, kept⟩ := inv
  obtain ⟨t, done, same, kept⟩ := fetch_covered built kept space covered
  simp only [bus, done]
  refine ⟨?_, rfl, same.symm, t, rfl, kept⟩
  rw [swapEndianess_little]
  exact big_congr fun i inside => (memcpy_of_lt inside).symm

theorem answers_read (built : c.Constructed) {m : Option (Caches σ)} (inv : c.Holding code mem m)
    {a asi : BitVec 32}
    (width : Width) (covered : c.Covered code (.read width.len.toNat a asi)) (lock : BitVec 32)
    {α : Type}
    {f g : Buffer → α} (same : ∀ b b', (∀ i < width.len.toNat, b i = b' i) → g b' = f b) :
    Answers (c.shown mem) (c.Holding code mem)
      ⟨f (c.read (request .read a width asi 0 lock) m).1, none,
        (c.read (request .read a width asi 0 lock) m).2⟩
      ⟨g (bytesAt (c.shown mem m) a), none, c.shown mem m⟩ := by
  obtain ⟨s, rfl, kept⟩ := inv
  obtain ⟨t, done, bytes, kept⟩ := read_covered built kept width lock covered
  rw [done]
  have value := same (memcpy (fun _ => 0) (bytesAt (mem.bytes s.memory) a) width.len.toNat)
    (bytesAt (mem.bytes s.memory) a) fun i inside => memcpy_of_lt inside
  exact ⟨value, rfl, bytes.symm, t, rfl, kept⟩

theorem answers_write (built : c.Constructed) {m : Option (Caches σ)} (inv : c.Holding code mem m)
    {a asi x : BitVec 32}
    (width : Width) (covered : c.Covered code (.write width.len.toNat a asi x)) {data data' : Buffer}
    (same : ∀ i < width.len.toNat, data i = data' i)
    (word : width = .word → data = bytes (swapEndianess 4 x)) :
    Answers (c.shown mem) (c.Holding code mem)
      ⟨(), none, c.write (request .write a width asi 0 0) data m⟩
      (storeBytes (c.shown mem m) a asi width.len.toNat data') := by
  obtain ⟨s, rfl, kept⟩ := inv
  obtain ⟨t, done, stored, kept⟩ := write_covered built kept width covered same word
  rw [done]
  exact ⟨rfl, rfl, stored.symm, t, rfl, kept⟩

theorem instrAsi_ne_passThrough (psr : BitVec 32) : PSR.instrAsi psr ≠ 0x1c := by
  unfold PSR.instrAsi
  split <;> decide

theorem bytes_swapHalves (x : BitVec 64) {i : ℕ} (inside : i < 8) :
    bytes (swapHalves x) i = halves x i := by
  simp only [swapHalves, halves]
  rw [or_shift_append, bytes_append (n := 4) (m := 4)]
  split
  · exact bytes_swapEndianess 4 _ ‹_›
  · exact bytes_swapEndianess 4 _ (by omega)

/-- The covered accesses are answered through the caches as by a big endian memory. -/
theorem serves (built : c.Constructed) :
    Serves (c.shown mem) (c.Holding code mem) (c.Covered code) c.bus bigEndian where
  readInstr a psr m inv covered := answers_fetch built inv (instrAsi_ne_passThrough psr) covered
  readByte a asi m inv covered := answers_read (f := little 1) (g := big 1) built inv .byte covered 0
      fun b b' same => by
    refine little_congr fun i inside => ?_
    obtain rfl : i = 0 := Nat.lt_one_iff.mp inside
    exact (same 0 inside).symm
  readHalf a asi m inv covered := answers_read (f := fun b => swapEndianess 2 (little 2 b))
    (g := big 2) built inv .half
    covered 0 fun b b' same => by
    rw [swapEndianess_little]
    exact big_congr fun i inside => (same i inside).symm
  readWord a asi lock m inv covered :=
    answers_read (f := fun b => swapEndianess 4 (little 4 b)) (g := big 4) built inv
    .word covered lock fun b b' same => by
    rw [swapEndianess_little]
    exact big_congr fun i inside => (same i inside).symm
  readDword a asi m inv covered := answers_read (f := fun b => swapHalves (little 8 b))
    (g := fun b => big 4 (skip b 4) ++ big 4 b) built inv .dword covered 0 fun b b' same => by
    rw [swapHalves_little]
    have low : big 4 b' = big 4 b := big_congr fun i inside =>
      (same i (Nat.lt_of_lt_of_le inside (by decide))).symm
    have high : big 4 (skip b' 4) = big 4 (skip b 4) :=
      big_congr fun i inside => (same (4 + i) (Nat.add_lt_add_left inside 4)).symm
    rw [low, high]
  writeByte a asi datum x m inv covered := answers_write built inv .byte covered (fun _ _ => rfl) nofun
  writeHalf a asi datum x m inv covered :=
    answers_write built inv .half covered (fun _ inside => bytes_swapEndianess 2 x inside) nofun
  writeWord a asi x m inv covered :=
    answers_write built inv .word covered (fun _ inside => bytes_swapEndianess 4 x inside) fun _ => rfl
  writeDword a asi datum x m inv covered :=
    answers_write built inv .dword covered (fun _ inside => bytes_swapHalves x inside) nofun

end Controller

/-! ## Runs -/

/-- What happens to a processor with caches. The rest of the system writes to memory over the bus. -/
inductive Occurrence
  | head | pass | interrupt (value : BitVec 32) (raise : Bool) | run (start : Bool) | busWrite
      (w : BlockWrite 32)

/-- The event that an occurrence is, by what a write over the bus does to the memory. -/
def Occurrence.event (busWrite : BlockWrite 32 → σ → σ) : Occurrence → Event σ
  | .head => .head
  | .pass => .pass
  | .interrupt value raise => .interrupt value raise
  | .run start => .run start
  | .busWrite w => .world (busWrite w)

/-- The steps of the processor on a big endian memory. -/
def plainStep (config : Config) (s : Simulation (Memory 32)) (o : Occurrence) :
    Option (Simulation (Memory 32)) :=
  s.step bigEndian config (o.event BlockWrite.apply)

/-- The processor with its memory seen through a map. -/
def Simulation.view {τ : Type} (v : σ → τ) (s : Simulation σ) : Simulation τ where
  cpu := s.cpu.view v
  IRQ := s.IRQ
  stopped := s.stopped
  waiting := s.waiting
  running := s.running

theorem Simulation.view_head {τ : Type} (v : σ → τ) (config : Config) (s : Simulation σ) :
    (s.view v).head config = (s.head config).view v := by
  obtain ⟨cpu, IRQ, stopped, waiting, running⟩ := s
  cases stopped <;> cases waiting <;> rfl

theorem Simulation.memory_head (config : Config) (s : Simulation σ) :
    (s.head config).cpu.memory = s.cpu.memory := by
  unfold head
  split_ifs <;> rfl

namespace Controller

section Runs

variable (c : Controller σ) (code : BitVec 32 → Prop) (mem : MemoryBacked c.port)

/-- The steps of the processor with its caches. -/
def cachedStep (config : Config) (s : Simulation (Option (Caches σ))) (o : Occurrence) :
    Option (Simulation (Option (Caches σ))) :=
  s.step c.bus config (o.event fun w s => s.bind (c.busWrite mem w))

/-- The occurrences that the caches do not show: passes whose accesses are covered, and writes of
whole words beside the code that the data cache snoops. -/
def CoveredOccurrence (s : Simulation (Memory 32)) : Occurrence → Prop
  | .pass => Permitted (c.Covered code) bigEndian s.IRQ s.cpu
  | .busWrite w => (c.generics.dcen = 1 → c.dsnoop = true) ∧ w.base.toNat % 4 = 0 ∧ w.len % 4 = 0 ∧
      w.base.toNat + w.len < 2 ^ 32 ∧ (c.generics.icen = true →
        ∀ b, ByteMemory.InRange w.base w.len b → ¬ code b)
  | _ => True

variable {c code mem}

/-- A covered step through the caches is the step on the memory that they show. -/
theorem cachedStep_view (built : c.Constructed) (config : Config)
    (s : Simulation (Option (Caches σ))) (o : Occurrence)
    (inv : c.Holding code mem s.cpu.memory)
    (covered : c.CoveredOccurrence code (s.view (c.shown mem)) o) :
    plainStep config (s.view (c.shown mem)) o = (c.cachedStep mem config s o).map
      (Simulation.view (c.shown mem)) ∧
      ∀ t, c.cachedStep mem config s o = some t → c.Holding code mem t.cpu.memory := by
  cases o with
  | head =>
    cases running : s.running with
    | true =>
      have refused : (s.view (c.shown mem)).running = true := running
      simp only [plainStep, cachedStep, Occurrence.event, Simulation.step, running, refused, if_true]
      exact ⟨rfl, nofun⟩
    | false =>
      have waits : (s.view (c.shown mem)).running = false := running
      simp only [plainStep, cachedStep, Occurrence.event, Simulation.step, running, waits,
        Bool.false_eq_true, if_false, Simulation.view_head]
      refine ⟨rfl, fun t same => ?_⟩
      rw [← Option.some.inj same, Simulation.memory_head]
      exact inv
  | pass =>
    cases running : s.running with
    | false =>
      have refused : (s.view (c.shown mem)).running = false := running
      simp only [plainStep, cachedStep, Occurrence.event, Simulation.step, running, refused,
        Bool.false_eq_true, if_false]
      exact ⟨rfl, nofun⟩
    | true =>
      have runs : (s.view (c.shown mem)).running = true := running
      have permitted : Permitted (c.Covered code) c.bus s.IRQ s.cpu :=
        (permitted_view (serves built) inv).mp covered
      obtain ⟨same, kept⟩ := passResult_view (serves built) inv permitted
      simp only [plainStep, cachedStep, Occurrence.event, Simulation.step, running, runs, if_true]
      have passed : passResult bigEndian (s.view (c.shown mem)).IRQ (s.view (c.shown mem)).cpu =
        (passResult c.bus s.IRQ s.cpu).map (Processor.view (c.shown mem)) := same
      rw [passed]
      cases result : passResult c.bus s.IRQ s.cpu with
      | none => exact ⟨rfl, nofun⟩
      | some u =>
        refine ⟨rfl, fun t next => ?_⟩
        rw [← Option.some.inj next]
        exact kept u result
  | interrupt value raise => exact ⟨rfl, fun t next => Option.some.inj next ▸ inv⟩
  | run start => exact ⟨rfl, fun t next => Option.some.inj next ▸ inv⟩
  | busWrite w =>
    obtain ⟨snooped, aligned, words, room, beside⟩ := covered
    obtain ⟨t, holds, kept⟩ := inv
    obtain ⟨u, written, shows, kept⟩ := busWrite_spec built kept snooped aligned words room beside
    have after : s.cpu.memory.bind (c.busWrite mem w) =
      some u := by rw [holds, Option.bind_some, written]
    have seen : w.apply (c.shown mem s.cpu.memory) = c.shown mem
        (s.cpu.memory.bind (c.busWrite mem w)) := by
      rw [after, holds]
      exact shows.symm
    simp only [plainStep, cachedStep, Occurrence.event, Simulation.step, Simulation.view,
      Processor.view, Option.map_some, seen]
    refine ⟨trivial, fun v next => ?_⟩
    rw [← Option.some.inj next]
    exact ⟨u, after, kept⟩

end Runs

/-- Both caches over a memory full of one store, with the code in its first bytes. -/
def smallController : Controller (Memory 32) :=
  ⟨CacheGenerics.smallGenerics, { smallPartialCache with cacheType := .icache }, smallDataCache, true,
    plainMemory fun _ => true, fun _ => 0⟩

/-- A write of another master, and the first store of the program. -/
def startAndStore : List Occurrence :=
  [.run true, .head, .busWrite ⟨0x40000000, fun _ => 0xff, 8⟩, .pass]

def fullOfStores : Simulation (Option (Caches (Memory 32))) :=
  .initial ⟨0, 0⟩ (some ⟨resetCache, resetCache, 0xf, fun a =>
    bytes (0x002820c0 : BitVec 32) (a.toNat % 4)⟩)

theorem smallController_constructed : smallController.Constructed := ⟨rfl, smallDataCache_isDataCache⟩

theorem reg_resetOp (config : Config) (s : Processor σ) (i : BitVec 5) :
    (resetOp config s).reg i = 0 := by
  unfold Processor.reg
  show (resetOp config s).load (s.REGS i) = 0
  cases s.REGS i with
  | global k => exact ite_self 0
  | window k => rfl

theorem permitted_store {s : Processor (Memory 32)} (pc : s.PC = 0) (psr : s.PSR = 0xf3000080)
    (regs : ∀ i, s.reg i = 0)
    (word : s.word bigEndian = 0xc0202800) (IRQ : BitVec 32) :
    Permitted (smallController.Covered fun a => a.toNat < 0x100) bigEndian IRQ s := by
  have zero : s.reg = fun _ => 0 := funext regs
  have access : accesses (Decoder.decode (s.word bigEndian))
    (setParams (s.word bigEndian)) s.PSR s.reg =
      [.write 4 0x800 0xb 0] := by
    rw [word, psr, zero]
    rfl
  refine .inr ⟨?_, ?_⟩
  · rw [pc]
    refine ⟨by decide, fun _ => ⟨rfl, fun b same => ?_⟩⟩
    rw [Config.sameLine_iff] at same
    have line : smallController.icache.mBytesperline = 16 := rfl
    have zero : (0 : BitVec 32).toNat = 0 := rfl
    rw [line, zero] at same
    show b.toNat < 0x100
    omega
  · rw [access]
    intro x member
    obtain rfl := List.mem_singleton.mp member
    refine ⟨fun side => by cases side <;> decide, rfl, fun _ b range code => ?_⟩
    rw [inRange_iff_of_no_wrap (by decide)] at range
    exact absurd (lt_of_le_of_lt range.1 code) (by decide)

end Controller

end Socrocket.Leon3
