/- Socrocket/MmuCache/ExecData
   digest: The decoders of instruction and data accesses: which component serves a request, whether it
   was created, and what the scratchpads read and write. -/

import Socrocket.Base.BitField
import Socrocket.Bus.Blocking
import Socrocket.MmuCache.VectorCache

set_option autoImplicit false
set_option relaxedAutoImplicit false

namespace Socrocket.MmuCache

open Socrocket.Base
open Socrocket.Base.BitField
open Socrocket.Base.ByteMemory
open Socrocket.Bus.AHBCtrl

/-- The generics that decide which components the constructor creates and what the decoders select. -/
structure CacheGenerics where
  icen : Bool
  dcen : BitVec 32
  ilram : Bool
  ilramsize : BitVec 32
  ilramstart : BitVec 32
  dlram : BitVec 32
  dlramsize : BitVec 32
  dlramstart : BitVec 32
  mmuEn : Bool

/-- The commands of a payload. -/
inductive Command where
  | read
  | write
  | ignore
deriving DecidableEq

/-- A data access of the processor. -/
structure DataRequest where
  cmd : Command
  addr : BitVec 32
  len : BitVec 32
  asi : BitVec 32
  flush : Bool
  lock : Bool
  isDbg : Bool
  len_range : len = 1 ∨ len = 2 ∨ len = 4 ∨ len = 8

/-- The registers of the memory management unit. -/
inductive MmuRegister where
  | mcr
  | mctpr
  | mctxr
  | mfsr
  | mfar
deriving DecidableEq

/-- The calls that the decoders make. The type of a cache stands for the instruction or the data
side. -/
inductive ComponentCall where
  | readCcr
  | writeCcr
  | readConfigReg (side : CacheType)
  | dbgOut (side : CacheType)
  | flush (side : CacheType)
  | readCacheTag (side : CacheType)
  | writeCacheTag (side : CacheType)
  | readCacheEntry (side : CacheType)
  | writeCacheEntry (side : CacheType)
  | diagReadTlb (side : CacheType)
  | diagWriteTlb (side : CacheType)
  | readMmu (register : MmuRegister)
  | writeMmu (register : MmuRegister)
  | tlbFlush
  | localramRead (side : CacheType)
  | localramWrite (side : CacheType)
  | cacheRead (side : CacheType)
  | cacheWrite (side : CacheType)
  | memRead
  | memWrite
deriving DecidableEq

/-- The address spaces that the decoders tell apart. -/
inductive AddressSpace where
  | systemRegisters
  | itlb
  | dtlb
  | icacheTags
  | icacheEntries
  | dcacheTags
  | dcacheEntries
  | flushBoth
  | flushIcache
  | flushDcache
  | flushTlb
  | mmuRegisters
  | memory
  | passThrough
  | unknown
deriving DecidableEq

/-- The labels of the ASI switches. -/
def addressSpace (asi : BitVec 32) : AddressSpace :=
  match asi.toNat with
  | 0x0 | 0x1 | 0x3 | 0x8 | 0x9 | 0xa | 0xb => .memory
  | 0x2 => .systemRegisters
  | 0x5 => .itlb
  | 0x6 => .dtlb
  | 0xc => .icacheTags
  | 0xd => .icacheEntries
  | 0xe => .dcacheTags
  | 0xf => .dcacheEntries
  | 0x11 => .flushBoth
  | 0x15 => .flushIcache
  | 0x16 => .flushDcache
  | 0x18 => .flushTlb
  | 0x19 => .mmuRegisters
  | 0x1c => .passThrough
  | _ => .unknown

namespace CacheGenerics

variable (g : CacheGenerics)

/-- The address points into the 16 MB region of a scratchpad that is enabled. -/
def Selects (addr : BitVec 32) : CacheType → Prop
  | .icache => g.ilram = true ∧ (addr >>> 24) &&& 0xff = g.ilramstart
  | .dcache => g.dlram ≠ 0 ∧ (addr >>> 24) &&& 0xff = g.dlramstart

instance (addr : BitVec 32) : ∀ side, Decidable (g.Selects addr side)
  | .icache => inferInstanceAs (Decidable (_ ∧ _))
  | .dcache => inferInstanceAs (Decidable (_ ∧ _))

/-- The calls of an instruction fetch. -/
def execInstr (addr : BitVec 32) : List ComponentCall :=
  if g.Selects addr .icache then [.localramRead .icache] else [.cacheRead .icache]

/-- A read that needs the memory management unit. -/
def onlyWithMmu (call : ComponentCall) : List ComponentCall × Option Response :=
  if g.mmuEn then ([call], some .ok) else ([], some .addressError)

/-- Who serves an access to memory: a scratchpad, or the data cache. -/
def memoryCall (addr : BitVec 32) (onScratchpad onCache : CacheType → ComponentCall) : ComponentCall :=
  if g.Selects addr .icache then onScratchpad .icache
  else if g.Selects addr .dcache then onScratchpad .dcache
  else onCache .dcache

/-- The ASI switch of the read command. The response is `none` where it is not set. -/
def execRead (addr asi : BitVec 32) : List ComponentCall × Option Response :=
  match addressSpace asi with
  | .systemRegisters =>
    if addr = 0 then ([.readCcr], some .ok)
    else if addr = 8 then ([.readConfigReg .icache], some .ok)
    else if addr = 0xc then ([.readConfigReg .dcache], some .ok)
    else ([], some .addressError)
  | .itlb => g.onlyWithMmu (.diagReadTlb .icache)
  | .dtlb => g.onlyWithMmu (.diagReadTlb .dcache)
  | .icacheTags => ([.readCacheTag .icache], some .ok)
  | .icacheEntries => ([.readCacheEntry .icache], some .ok)
  | .dcacheTags => ([.readCacheTag .dcache], some .ok)
  | .dcacheEntries => ([.readCacheEntry .dcache], some .ok)
  | .mmuRegisters =>
    if addr = 0x000 then g.onlyWithMmu (.readMmu .mcr)
    else if addr = 0x100 then g.onlyWithMmu (.readMmu .mctpr)
    else if addr = 0x200 then g.onlyWithMmu (.readMmu .mctxr)
    else if addr = 0x300 then g.onlyWithMmu (.readMmu .mfsr)
    else if addr = 0x400 then g.onlyWithMmu (.readMmu .mfar)
    else ([], some .addressError)
  | .memory => ([g.memoryCall addr .localramRead .cacheRead], some .ok)
  | .passThrough => ([.memRead], none)
  | .flushBoth | .flushIcache | .flushDcache | .flushTlb | .unknown => ([], some .addressError)

/-- The ASI switch of the write command. -/
def execWrite (addr asi : BitVec 32) : List ComponentCall × Option Response :=
  match addressSpace asi with
  | .systemRegisters =>
    if addr = 0 then ([.writeCcr], some .ok)
    else if addr = 0xfe then ([.dbgOut .icache], some .ok)
    else if addr = 0xff then ([.dbgOut .dcache], some .ok)
    else ([], some .addressError)
  | .itlb => g.onlyWithMmu (.diagWriteTlb .icache)
  | .dtlb => g.onlyWithMmu (.diagWriteTlb .dcache)
  | .icacheTags => ([.writeCacheTag .icache], some .ok)
  | .icacheEntries => ([.writeCacheEntry .icache], some .ok)
  | .dcacheTags => ([.writeCacheTag .dcache], some .ok)
  | .dcacheEntries => ([.writeCacheEntry .dcache], some .ok)
  | .flushBoth => ([.flush .icache, .flush .dcache], some .ok)
  | .flushIcache => ([.flush .icache], some .ok)
  | .flushDcache => ([.flush .dcache], some .ok)
  | .flushTlb => ([.tlbFlush], some .ok)
  | .mmuRegisters =>
    if addr = 0x000 then g.onlyWithMmu (.writeMmu .mcr)
    else if addr = 0x100 then g.onlyWithMmu (.writeMmu .mctpr)
    else if addr = 0x200 then g.onlyWithMmu (.writeMmu .mctxr)
    else ([], some .addressError)
  | .memory => ([g.memoryCall addr .localramWrite .cacheWrite], some .ok)
  | .passThrough => ([.memWrite], none)
  | .unknown => ([], some .addressError)

/-- The calls of a data access and the response that it sets. -/
def execData (r : DataRequest) : List ComponentCall × Option Response :=
  if r.flush then ([.flush .icache, .flush .dcache], some .ok)
  else
    match r.cmd with
    | .read => g.execRead r.addr r.asi
    | .write => g.execWrite r.addr r.asi
    | .ignore => ([], some .commandError)

/-- The memory management unit is created where it is enabled. -/
def MmuCreated : Prop := g.mmuEn = true

/-- A scratchpad is created where its generic is one and the memory management unit is disabled. -/
def LocalramCreated : CacheType → Prop
  | .icache => g.ilram = true ∧ g.mmuEn = false
  | .dcache => g.dlram = 1 ∧ g.mmuEn = false

/-- The generics of a scratchpad: its size in kilobytes and its start address. -/
def localramGenerics : CacheType → BitVec 32 × BitVec 32
  | .icache => (g.ilramsize, g.ilramstart)
  | .dcache => (g.dlramsize, g.dlramstart)

end CacheGenerics

/-- A scratchpad. -/
structure Localram where
  mLrsize : BitVec 32
  mLrstart : BitVec 32
  scratchpad : Buffer

namespace Localram

/-- A scratchpad as its constructor leaves it. -/
def create (lrsize lrstart : BitVec 32) : Localram := ⟨lrsize <<< 10, lrstart <<< 24, fun _ => 0⟩

variable (l : Localram)

/-- The position of a byte of an access in the scratchpad. -/
def position (addr i : BitVec 32) : ℕ :=
  (((addr - l.mLrstart) >>> 2) <<< 2 + ((addr &&& 0x3) + i)).toNat

/-- All bytes of an access are in the scratchpad. -/
def Inside (addr len : BitVec 32) : Prop := ∀ i < len, l.position addr i < l.mLrsize.toNat

/-- Read from the scratchpad. -/
def memRead (addr : BitVec 32) (data : Buffer) (len : BitVec 32) : Buffer :=
  fun i => if i < len.toNat then l.scratchpad (l.position addr (BitVec.ofNat 32 i)) else data i

/-- Write to the scratchpad, byte by byte. -/
def memWrite (addr : BitVec 32) (data : Buffer) (len : BitVec 32) : Localram :=
  { l with
    scratchpad := (List.range len.toNat).foldl
      (fun s i => Function.update s (l.position addr (BitVec.ofNat 32 i)) (data i)) l.scratchpad }

variable {l}

theorem position_inj {addr i j : BitVec 32} (same : l.position addr i = l.position addr j) : i = j :=
  add_left_cancel (add_left_cancel (BitVec.eq_of_toNat_eq same))

/-- A scratchpad returns what was written to it. -/
theorem memRead_memWrite (addr len : BitVec 32) (data data' : Buffer) {i : ℕ} (below : i < len.toNat) :
    (l.memWrite addr data len).memRead addr data' len i = data i := by
  have written (n : ℕ) (fits : n ≤ 2 ^ 32) (s : Buffer) {k : ℕ} (hk : k < n) :
      (List.range n).foldl
        (fun s i => Function.update s (l.position addr (BitVec.ofNat 32 i)) (data i)) s
        (l.position addr (BitVec.ofNat 32 k)) = data k := by
    induction n with
    | zero => exact absurd hk (Nat.not_lt_zero k)
    | succ n ih =>
      rw [List.range_succ, List.foldl_append, List.foldl_cons, List.foldl_nil]
      by_cases last : k = n
      · rw [last, Function.update_self]
      · rw [Function.update_of_ne, ih (by omega) (by omega)]
        intro same
        have equal := congrArg BitVec.toNat (position_inj same)
        rw [BitVec.toNat_ofNat, BitVec.toNat_ofNat, Nat.mod_eq_of_lt (by omega),
          Nat.mod_eq_of_lt (by omega)] at equal
        exact last equal
  exact (if_pos below).trans (written len.toNat len.isLt.le l.scratchpad below)

end Localram

namespace CacheGenerics

variable (g : CacheGenerics)

/-- The scratchpad of a side, if it was created. -/
def localram (side : CacheType) : Localram :=
  .create (g.localramGenerics side).1 (g.localramGenerics side).2

/-- A call uses a component that was created, and of a scratchpad only bytes that it has. -/
def Usable (addr len : BitVec 32) : ComponentCall → Prop
  | .diagReadTlb _ | .diagWriteTlb _ | .readMmu _ | .writeMmu _ | .tlbFlush => g.MmuCreated
  | .localramRead side | .localramWrite side =>
    g.LocalramCreated side ∧ (g.localram side).Inside addr len
  | _ => True

/-- A request is answered: every call is usable, and the response is set. -/
structure Answered (addr len : BitVec 32) (served : List ComponentCall × Option Response) : Prop where
  usable : ∀ call ∈ served.1, g.Usable addr len call
  response : ∃ response, served.2 = some response ∧ response ≠ .incomplete

/-- The accesses are defined: the fetch of an instruction of four bytes, and a data access. -/
structure ExecDefined (fetch : BitVec 32) (r : DataRequest) : Prop where
  instr : ∀ call ∈ g.execInstr fetch, g.Usable fetch 4 call
  data : g.Answered r.addr r.len (g.execData r)

/-- The scratchpad that an address selects was created and holds the bytes of the access. -/
def Holds (addr len : BitVec 32) (side : CacheType) : Prop :=
  g.LocalramCreated side ∧
    (addr &&& 0xffffff).toNat + len.toNat ≤ ((g.localramGenerics side).1 <<< 10).toNat

/-- The scratchpad that serves an access to memory, if one does, holds its bytes. -/
def MemoryHeld (addr len : BitVec 32) : Prop :=
  (g.Selects addr .icache → g.Holds addr len .icache) ∧
    (¬g.Selects addr .icache → g.Selects addr .dcache → g.Holds addr len .dcache)

/-- What the decoder needs of a data access in an address space: a scratchpad that holds it, the unit
whose translation buffers are flushed, and that it does not pass through. -/
def SpaceSupported (r : DataRequest) : AddressSpace → Prop
  | .memory => g.MemoryHeld r.addr r.len
  | .flushTlb => r.cmd = .write → g.mmuEn = true
  | .passThrough => False
  | _ => True

/-- What the decoder needs of a data access. -/
def Supported (r : DataRequest) : Prop :=
  r.flush = false → r.cmd ≠ .ignore → g.SpaceSupported r (addressSpace r.asi)

variable {g} {addr len : BitVec 32} {side : CacheType} {r : DataRequest}

theorem toNat_and_mask {mask : BitVec 32} {k : ℕ} (value : mask.toNat = 2 ^ k - 1) (a : BitVec 32) :
    (a &&& mask).toNat = a.toNat % 2 ^ k := by
  rw [BitVec.toNat_and, value, Nat.and_two_pow_sub_one_eq_mod]

theorem sub_region (addr : BitVec 32) :
    (addr - ((addr >>> 24) &&& 0xff) <<< 24).toNat = addr.toNat % 2 ^ 24 := by
  have bound := addr.isLt
  have high : ((addr >>> 24) &&& 0xff).toNat = addr.toNat / 2 ^ 24 := by
    rw [toNat_and_mask (k := 8) rfl, toNat_shiftRight]
    omega
  have start : (((addr >>> 24) &&& 0xff) <<< 24).toNat = addr.toNat / 2 ^ 24 * 2 ^ 24 := by
    rw [toNat_shiftLeft_of_lt (r := 8) (by decide) (by omega), high]
  rw [BitVec.toNat_sub_of_le (by rw [BitVec.le_def, start]; omega), start]
  omega

theorem position_eq (selects : g.Selects addr side) {i : BitVec 32} (small : i.toNat < 8) :
    (g.localram side).position addr i = (addr &&& 0xffffff).toNat + i.toNat := by
  have start : (g.localram side).mLrstart = ((addr >>> 24) &&& 0xff) <<< 24 := by
    cases side with
    | icache =>
      obtain ⟨-, region⟩ := selects
      rw [region]
      rfl
    | dcache =>
      obtain ⟨-, region⟩ := selects
      rw [region]
      rfl
  have offset : (addr &&& 0xffffff).toNat = addr.toNat % 2 ^ 24 :=
    toNat_and_mask (k := 24) rfl addr
  have low : (addr &&& 0x3).toNat = addr.toNat % 2 ^ 2 := toNat_and_mask (k := 2) rfl addr
  rw [Localram.position, start]
  have words : (((addr - ((addr >>> 24) &&& 0xff) <<< 24) >>> 2) <<< 2).toNat =
      addr.toNat % 2 ^ 24 / 2 ^ 2 * 2 ^ 2 := by
    rw [toNat_shiftLeft_of_lt (r := 22) (by decide) (by rw [toNat_shiftRight, sub_region]; omega),
      toNat_shiftRight, sub_region]
  rw [BitVec.toNat_add, BitVec.toNat_add, words, low, offset]
  omega

/-- A selected scratchpad holds an access if and only if it was created and no byte is behind its
end. -/
theorem usable_localram_iff (selects : g.Selects addr side)
    (length : len = 1 ∨ len = 2 ∨ len = 4 ∨ len = 8) :
    (g.LocalramCreated side ∧ (g.localram side).Inside addr len) ↔ g.Holds addr len side := by
  have range : 1 ≤ len.toNat ∧ len.toNat ≤ 8 := by
    rcases length with rfl | rfl | rfl | rfl <;> decide
  refine and_congr_right fun _ => ?_
  change (∀ i < len, (g.localram side).position addr i < ((g.localramGenerics side).1 <<< 10).toNat) ↔ _
  constructor
  · intro inside
    have last : (BitVec.ofNat 32 (len.toNat - 1)).toNat = len.toNat - 1 := by
      rw [BitVec.toNat_ofNat, Nat.mod_eq_of_lt (by omega)]
    have end_inside := inside (BitVec.ofNat 32 (len.toNat - 1)) (by rw [BitVec.lt_def, last]; omega)
    rw [position_eq selects (by omega), last] at end_inside
    omega
  · intro fits i below
    have small : i.toNat < len.toNat := below
    rw [position_eq selects (by omega)]
    omega

theorem answered_error : g.Answered addr len ([], some .addressError) :=
  ⟨fun _ member => absurd member List.not_mem_nil, .addressError, rfl, by decide⟩

theorem answered_iff {call : ComponentCall} :
    g.Answered addr len ([call], some .ok) ↔ g.Usable addr len call := by
  constructor
  · intro answered
    exact answered.usable call (List.mem_singleton_self call)
  · intro usable
    refine ⟨fun other member => ?_, .ok, rfl, by decide⟩
    exact (List.mem_singleton.mp member) ▸ usable

theorem answered_onlyWithMmu {call : ComponentCall} (unit : g.MmuCreated → g.Usable addr len call) :
    g.Answered addr len (g.onlyWithMmu call) := by
  unfold onlyWithMmu
  by_cases created : g.mmuEn = true
  · rw [if_pos created]
    exact answered_iff.mpr (unit created)
  · rw [if_neg created]
    exact answered_error

theorem answered_memory_iff {onScratchpad onCache : CacheType → ComponentCall}
    (length : len = 1 ∨ len = 2 ∨ len = 4 ∨ len = 8)
    (scratchpad : ∀ side, g.Usable addr len (onScratchpad side) ↔
      g.LocalramCreated side ∧ (g.localram side).Inside addr len)
    (cache : ∀ side, g.Usable addr len (onCache side)) :
    g.Answered addr len ([g.memoryCall addr onScratchpad onCache], some .ok) ↔
      g.MemoryHeld addr len := by
  rw [answered_iff, memoryCall, MemoryHeld]
  by_cases instr : g.Selects addr .icache
  · rw [if_pos instr, scratchpad, usable_localram_iff instr length]
    simp [instr]
  · rw [if_neg instr]
    by_cases data : g.Selects addr .dcache
    · rw [if_pos data, scratchpad, usable_localram_iff data length]
      simp [instr, data]
    · rw [if_neg data]
      simp [instr, data, cache]

theorem answered_flush (first second : CacheType) :
    g.Answered addr len ([.flush first, .flush second], some .ok) := by
  refine ⟨fun call member => ?_, .ok, rfl, by decide⟩
  rcases List.mem_pair.mp member with rfl | rfl
  · trivial
  · trivial

theorem answered_ite {P : Prop} [Decidable P] {yes no : List ComponentCall × Option Response}
    (first : g.Answered addr len yes) (second : g.Answered addr len no) :
    g.Answered addr len (if P then yes else no) := by
  by_cases holds : P
  · rwa [if_pos holds]
  · rwa [if_neg holds]

theorem answered_read_iff (cmd : r.cmd = .read) :
    g.Answered r.addr r.len (g.execRead r.addr r.asi) ↔ g.SpaceSupported r (addressSpace r.asi) := by
  unfold execRead
  cases addressSpace r.asi with
  | systemRegisters =>
    refine iff_of_true ?_ trivial
    exact answered_ite (answered_iff.mpr trivial) (answered_ite (answered_iff.mpr trivial)
      (answered_ite (answered_iff.mpr trivial) answered_error))
  | itlb | dtlb => exact iff_of_true (answered_onlyWithMmu fun unit => unit) trivial
  | icacheTags | icacheEntries | dcacheTags | dcacheEntries =>
    exact iff_of_true (answered_iff.mpr trivial) trivial
  | mmuRegisters =>
    refine iff_of_true ?_ trivial
    have each (register : MmuRegister) :
        g.Answered r.addr r.len (g.onlyWithMmu (.readMmu register)) := answered_onlyWithMmu id
    exact answered_ite (each _) (answered_ite (each _) (answered_ite (each _) (answered_ite (each _)
      (answered_ite (each _) answered_error))))
  | memory => exact answered_memory_iff r.len_range (fun _ => Iff.rfl) fun _ => trivial
  | passThrough =>
    refine iff_of_false (fun answered => ?_) id
    obtain ⟨response, none, -⟩ := answered.response
    cases none
  | flushTlb => exact iff_of_true answered_error fun write => by rw [cmd] at write; cases write
  | flushBoth | flushIcache | flushDcache | unknown => exact iff_of_true answered_error trivial

theorem answered_write_iff (cmd : r.cmd = .write) :
    g.Answered r.addr r.len (g.execWrite r.addr r.asi) ↔ g.SpaceSupported r (addressSpace r.asi) := by
  unfold execWrite
  cases addressSpace r.asi with
  | systemRegisters =>
    refine iff_of_true ?_ trivial
    exact answered_ite (answered_iff.mpr trivial) (answered_ite (answered_iff.mpr trivial)
      (answered_ite (answered_iff.mpr trivial) answered_error))
  | itlb | dtlb => exact iff_of_true (answered_onlyWithMmu fun unit => unit) trivial
  | icacheTags | icacheEntries | dcacheTags | dcacheEntries =>
    exact iff_of_true (answered_iff.mpr trivial) trivial
  | mmuRegisters =>
    refine iff_of_true ?_ trivial
    have each (register : MmuRegister) :
        g.Answered r.addr r.len (g.onlyWithMmu (.writeMmu register)) := answered_onlyWithMmu id
    exact answered_ite (each _) (answered_ite (each _) (answered_ite (each _) answered_error))
  | memory => exact answered_memory_iff r.len_range (fun _ => Iff.rfl) fun _ => trivial
  | passThrough =>
    refine iff_of_false (fun answered => ?_) id
    obtain ⟨response, none, -⟩ := answered.response
    cases none
  | flushTlb => exact answered_iff.trans ⟨fun unit _ => unit, fun supported => supported cmd⟩
  | flushBoth => exact iff_of_true (answered_flush _ _) trivial
  | flushIcache | flushDcache => exact iff_of_true (answered_iff.mpr trivial) trivial
  | unknown => exact iff_of_true answered_error trivial

theorem answered_data_iff : g.Answered r.addr r.len (g.execData r) ↔ g.Supported r := by
  unfold execData Supported
  by_cases flush : r.flush = true
  · rw [if_pos flush]
    refine iff_of_true (answered_flush _ _) fun off => ?_
    rw [flush] at off
    cases off
  · have off : r.flush = false := Bool.eq_false_iff.mpr flush
    rw [if_neg flush]
    cases cmd : r.cmd with
    | read => simpa [off] using answered_read_iff cmd
    | write => simpa [off] using answered_write_iff cmd
    | ignore =>
      refine iff_of_true ⟨fun _ member =>
        absurd member List.not_mem_nil, .commandError, rfl, by decide⟩ ?_
      exact fun _ acts => absurd rfl acts

/-- The accesses are defined if and only if the fetch selects a scratchpad that holds it or none,
and the data access has what the decoder needs. -/
theorem exec_defined_iff (g : CacheGenerics) (fetch : BitVec 32) (r : DataRequest) :
    g.ExecDefined fetch r ↔
      (g.Selects fetch .icache → g.Holds fetch 4 .icache) ∧ g.Supported r := by
  have instr : (∀ call ∈ g.execInstr fetch, g.Usable fetch 4 call) ↔
      (g.Selects fetch .icache → g.Holds fetch 4 .icache) := by
    unfold execInstr
    by_cases selects : g.Selects fetch .icache
    · rw [if_pos selects]
      simp only [List.mem_singleton, forall_eq, selects, true_implies]
      exact usable_localram_iff selects (by decide)
    · rw [if_neg selects]
      simp [selects, Usable]
  rw [← instr, ← answered_data_iff]
  exact ⟨fun defined => ⟨defined.instr, defined.data⟩, fun both => ⟨both.1, both.2⟩⟩

theorem cacheWrite_not_mem_execRead (addr asi : BitVec 32) (side : CacheType) :
    .cacheWrite side ∉ (g.execRead addr asi).1 := by
  unfold execRead onlyWithMmu memoryCall
  cases addressSpace asi with
  | systemRegisters | itlb | dtlb | mmuRegisters | memory =>
    dsimp only
    split_ifs <;> simp
  | _ => simp

/-- The accesses that write through the data cache: stores to memory that no scratchpad serves. -/
theorem cacheWrite_mem_iff : .cacheWrite side ∈ (g.execData r).1 ↔
    side = .dcache ∧ r.flush = false ∧ r.cmd = .write ∧ addressSpace r.asi = .memory ∧
      ¬g.Selects r.addr .icache ∧ ¬g.Selects r.addr .dcache := by
  unfold execData
  cases flush : r.flush with
  | true => simp
  | false =>
    cases cmd : r.cmd with
    | read => simp [cacheWrite_not_mem_execRead]
    | ignore => simp
    | write =>
      simp only [Bool.false_eq_true, if_false, true_and]
      unfold execWrite onlyWithMmu memoryCall
      cases addressSpace r.asi with
      | systemRegisters | itlb | dtlb | mmuRegisters =>
        dsimp only
        split_ifs <;> simp
      | memory =>
        dsimp only
        split_ifs with instr data
        · simp [instr]
        · simp [data]
        · simp [instr, data]
      | _ => simp

/-- Scratchpads without a memory management unit: one kilobyte for data from 0x8f000000 on. -/
def smallGenerics : CacheGenerics := ⟨true, 1, false, 0, 0, 1, 1, 0x8f, false⟩

/-- A word load. -/
def wordLoad (addr asi : BitVec 32) : DataRequest :=
  ⟨.read, addr, 4, asi, false, false, false, by decide⟩

/-- A load that passes through sets no response. -/
theorem pass_through_unanswered :
    ¬∀ (g : CacheGenerics) (fetch : BitVec 32) (r : DataRequest), g.ExecDefined fetch r := by
  intro all
  obtain ⟨response, set, -⟩ := (all smallGenerics 0 (wordLoad 0x40000000 0x1c)).data.response
  have unset : (smallGenerics.execData (wordLoad 0x40000000 0x1c)).2 = none := by decide
  rw [unset] at set
  cases set

end CacheGenerics

end Socrocket.MmuCache
