/- Socrocket/Leon3/CachedBus
   digest: The accesses of the processor on their way through the caches, byte orders included. -/

import Socrocket.Base.ByteOrder
import Socrocket.Leon3.Processor
import Socrocket.MmuCache.LockFlag

set_option autoImplicit false
set_option relaxedAutoImplicit false

namespace Socrocket.Leon3

open Base.ByteMemory Base.ByteOrder MmuCache

variable {σ : Type}

/-! ## The controller of the caches -/

/-- The controller as it was constructed, without a memory management unit, with the bus behind it.
The last field is what the buffers of the line fetches hold before they are filled. Behind the port
a store is in memory when it returns: `bus_in_fifo` and `mem_access` are between the caches and the
bus of `Cluster`, not here. -/
structure Controller (σ : Type) where
  generics : CacheGenerics
  icache : MmuCache.Config
  dcache : MmuCache.Config
  dsnoop : Bool
  port : MemIf σ
  ahbData : Buffer

/-- The state of the two caches, the cache control register and the memory behind the bus. -/
structure Caches (σ : Type) where
  icache : VectorCache
  dcache : VectorCache
  ccr : BitVec 32
  memory : σ

/-- Turn the bytes of a number round. -/
def swapEndianess (n : ℕ) (datum : BitVec (8 * n)) : BitVec (8 * n) :=
  little n ((List.range (n / 2)).foldl (fun b i => exchange b i (n - 1 - i)) (bytes datum))

namespace Controller

variable (c : Controller σ)

/-- The parameters by reference at the start of an access. -/
def reply : MmuCache.Reply := ⟨0, true⟩

/-- A read through a cache that is absent. -/
def readThrough (s : Caches σ) (r : MmuCache.Request) (data : Buffer) : Option (Caches σ × Buffer) :=
  let t := c.port.memRead s.memory r data reply
  some ({ s with memory := t.state }, t.data)

/-- A read through the cache of a side. -/
def cacheRead (s : Caches σ) (r : MmuCache.Request) (data : Buffer) :
    CacheType → Option (Caches σ × Buffer)
  | .icache =>
    if c.generics.icen then
      (VectorCache.memRead c.icache c.port s.ccr s.icache s.memory r data reply c.ahbData).map fun t =>
        ({ s with icache := t.1, memory := t.2.1 }, t.2.2.1)
    else c.readThrough s r data
  | .dcache =>
    if c.generics.dcen = 1 then
      (VectorCache.memRead c.dcache c.port s.ccr s.dcache s.memory r data reply c.ahbData).map fun t =>
        ({ s with dcache := t.1, memory := t.2.1 }, t.2.2.1)
    else c.readThrough s r data

/-- A write of the data side. -/
def cacheWrite (s : Caches σ) (r : MmuCache.Request) (data : Buffer) : Caches σ :=
  if c.generics.dcen = 1 then
    let t := VectorCache.memWrite c.dcache c.port s.ccr s.dcache s.memory r data reply
    { s with dcache := t.1, memory := t.2.1 }
  else { s with memory := (c.port.memWrite s.memory r data reply).1 }

/-- The flush of a side. One without a cache does nothing. -/
def flush (s : Caches σ) : CacheType → Caches σ
  | .icache => if c.generics.icen then
      { s with icache := (VectorCache.flush c.icache s.icache reply).1 } else s
  | .dcache => if c.generics.dcen = 1 then
      { s with dcache := (VectorCache.flush c.dcache s.dcache reply).1 } else s

/-- The write of the cache control register, which flushes first where its bits say so. -/
def writeCcr (s : Caches σ) (data : Buffer) : Caches σ :=
  let tmp := swapEndianess 4 (little 4 data)
  let s := if tmp &&& 0x400000 ≠ 0 then c.flush s .dcache else s
  let s := if tmp &&& 0x200000 ≠ 0 then c.flush s .icache else s
  { s with ccr := tmp &&& 0xff9f3fff }

def readCcr (s : Caches σ) : Buffer := bytes (swapEndianess 4 s.ccr)

/-- Perform a call of the decoders. `none` stands for a cache that leaves its memory, for the write
of a part of the cache control register, and for the calls that are left out. -/
def perform (s : Caches σ) (r : MmuCache.Request) (data : Buffer) :
    ComponentCall → Option (Caches σ × Buffer)
  | .cacheRead side => c.cacheRead s r data side
  | .cacheWrite .dcache => some (c.cacheWrite s r data, data)
  | .flush side => some (c.flush s side, data)
  | .readCcr => some (s, readCcr s)
  | .writeCcr => if r.len = 4 then some (c.writeCcr s data, data) else none
  | .memRead => c.readThrough s r data
  | .memWrite => some ({ s with memory := (c.port.memWrite s.memory r data reply).1 }, data)
  | _ => none

def execInstr (s : Caches σ) (addr asi : BitVec 32) (data : Buffer) : Option (Caches σ × Buffer) :=
  (c.generics.execInstr addr).foldlM (fun t call =>
    c.perform t.1 ⟨addr, asi, 4, false, false⟩ t.2 call) (s, data)

def execData (s : Caches σ) (r : DataRequest) (data : Buffer) : Option (Caches σ × Buffer) :=
  (c.generics.execData r).1.foldlM (fun t call => c.perform t.1 (DataSide.parameters r) t.2 call)
  (s, data)

/-- The write of another master, with the snoop that follows in the same step. -/
def busWrite {m : MemIf σ} (mem : MemoryBacked m) (w : BlockWrite 32) (s : Caches σ) :
    Option (Caches σ) :=
  let s := { s with memory := mem.busWrite s.memory w }
  if c.generics.dcen = 1 ∧ c.dsnoop then
    (VectorCache.snoopInvalidate c.dcache s.ccr s.dcache ⟨w.base, BitVec.ofNat 32 w.len⟩).map fun d =>
      { s with dcache := d }
  else some s

/-! ## The interface of the processor -/

/-- Both halves of a double word are turned round. -/
def swapHalves (datum : BitVec 64) : BitVec 64 :=
  let datum1 : BitVec 32 := swapEndianess 4 (datum.setWidth 32)
  let datum2 : BitVec 32 := swapEndianess 4 ((datum >>> 32).setWidth 32)
  datum1.setWidth 64 ||| datum2.setWidth 64 <<< 32

/-- The lengths of the data accesses. -/
inductive Width
  | byte | half | word | dword

def Width.len : Width → BitVec 32
  | .byte => 1
  | .half => 2
  | .word => 4
  | .dword => 8

theorem Width.len_range (width : Width) :
    width.len = 1 ∨ width.len = 2 ∨ width.len = 4 ∨ width.len = 8 := by
  cases width with
  | byte => exact .inl rfl
  | half => exact .inr (.inl rfl)
  | word => exact .inr (.inr (.inl rfl))
  | dword => exact .inr (.inr (.inr rfl))

theorem Width.length (width : Width) :
    width.len.toNat = 1 ∨ width.len.toNat = 2 ∨ width.len.toNat = 4 ∨ width.len.toNat = 8 := by
  cases width with
  | byte => exact .inl rfl
  | half => exact .inr (.inl rfl)
  | word => exact .inr (.inr (.inl rfl))
  | dword => exact .inr (.inr (.inr rfl))

theorem Width.eq_word {width : Width} (length : width.len.toNat = 4) : width = .word := by
  cases width with
  | word => rfl
  | byte => exact absurd length (by decide)
  | half => exact absurd length (by decide)
  | dword => exact absurd length (by decide)

/-- The request of a data access. -/
def request (cmd : Command) (addr : BitVec 32) (width : Width) (asi flush lock : BitVec 32) :
    DataRequest :=
  ⟨cmd, addr, width.len, asi, decide (flush ≠ 0), decide (lock ≠ 0), false, width.len_range⟩

/-- What a read leaves. Where the caches are in no state, nothing is read. -/
def answer (t : Option (Caches σ × Buffer)) : Buffer × Option (Caches σ) :=
  (t.elim (fun _ => 0) Prod.snd, t.map Prod.fst)

/-- Reads go into a datum that is zero. -/
def read (r : DataRequest) (s : Option (Caches σ)) : Buffer × Option (Caches σ) :=
  answer (s.bind fun t => c.execData t r fun _ => 0)

def fetch (a asi : BitVec 32) (s : Option (Caches σ)) : Buffer × Option (Caches σ) :=
  answer (s.bind fun t => c.execInstr t a asi fun _ => 0)

def write (r : DataRequest) (data : Buffer) (s : Option (Caches σ)) : Option (Caches σ) :=
  s.bind fun t => (c.execData t r data).map Prod.fst

/-- The accesses of the processor. No access triggers an exception without a memory management unit. -/
def bus : MemoryInterface (Option (Caches σ)) where
  readInstr a asi _ s :=
    let t := c.fetch a asi s
    ⟨swapEndianess 4 (little 4 t.1), none, t.2⟩
  readDword a asi flush lock s :=
    let t := c.read (request .read a .dword asi flush lock) s
    ⟨swapHalves (little 8 t.1), none, t.2⟩
  readWord a asi flush lock s :=
    let t := c.read (request .read a .word asi flush lock) s
    ⟨swapEndianess 4 (little 4 t.1), none, t.2⟩
  readHalf a asi flush lock s :=
    let t := c.read (request .read a .half asi flush lock) s
    ⟨swapEndianess 2 (little 2 t.1), none, t.2⟩
  readByte a asi flush lock s :=
    let t := c.read (request .read a .byte asi flush lock) s
    ⟨little 1 t.1, none, t.2⟩
  writeDword a datum asi flush lock s :=
    ⟨(), none, c.write (request .write a .dword asi flush lock) (bytes (swapHalves datum)) s⟩
  writeWord a datum asi flush lock s :=
    ⟨(), none, c.write (request .write a .word asi flush lock) (bytes (swapEndianess 4 datum)) s⟩
  writeHalf a datum asi flush lock s :=
    ⟨(), none, c.write (request .write a .half asi flush lock) (bytes (swapEndianess 2 datum)) s⟩
  writeByte a datum asi flush lock s :=
    ⟨(), none, c.write (request .write a .byte asi flush lock) (bytes datum) s⟩

end Controller

/-! ## The byte orders -/

theorem swapEndianess_eq (n : ℕ) (datum : BitVec (8 * n)) :
    swapEndianess n datum = little n (reversed n (bytes datum)) := by
  rw [swapEndianess, foldl_exchange_half]

theorem swapEndianess_little (n : ℕ) (b : Buffer) : swapEndianess n (little n b) = big n b := by
  rw [swapEndianess_eq]
  apply big_congr
  intro i inside
  exact bytes_little b inside

theorem bytes_swapEndianess (n : ℕ) (datum : BitVec (8 * n)) {i : ℕ} (inside : i < n) :
    bytes (swapEndianess n datum) i = reversed n (bytes datum) i := by
  rw [swapEndianess_eq, bytes_little _ inside]

theorem swapEndianess_swap (n : ℕ) (datum : BitVec (8 * n)) :
    swapEndianess n (swapEndianess n datum) = datum := by
  rw [swapEndianess_eq n datum, swapEndianess_little, big_reversed_bytes]

theorem or_shift_append (x y : BitVec 32) : x.setWidth 64 ||| y.setWidth 64 <<< 32 = y ++ x := by
  apply BitVec.eq_of_getLsbD_eq
  intro i inside
  rw [BitVec.getLsbD_or, BitVec.getLsbD_shiftLeft, BitVec.getLsbD_append, BitVec.getLsbD_setWidth,
    BitVec.getLsbD_setWidth]
  by_cases lower : i < 32
  · simp [lower, inside]
  · have above : x.getLsbD i = false := BitVec.getLsbD_of_ge x i (by omega)
    have within : i - 32 < 64 := by omega
    simp [lower, inside, above, within]

namespace Controller

theorem swapHalves_little (b : Buffer) : swapHalves (little 8 b) = big 4 (skip b 4) ++ big 4 b := by
  have lower : (little 8 b).setWidth 32 = little 4 b := setWidth_little (n := 4) 4 b
  have upper : (little 8 b >>> 32).setWidth 32 = little 4 (skip b 4) :=
    setWidth_shift_little (n := 4) 4 b
  simp only [swapHalves]
  rw [or_shift_append, lower, upper, swapEndianess_little, swapEndianess_little]

end Controller

end Socrocket.Leon3
