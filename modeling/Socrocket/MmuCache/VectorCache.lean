/- Socrocket/MmuCache/VectorCache
   digest: The cache memory and controller of `vectorcache`, line by line of its source. -/

import Socrocket.MmuCache.Geometry
import Mathlib.Logic.Function.Iterate

set_option autoImplicit false
set_option relaxedAutoImplicit false

namespace Socrocket.MmuCache

open Socrocket.Base.ByteMemory

/-- The parameters a caller of the memory interface fixes. -/
structure Request where
  address : BitVec 32
  asi : BitVec 32
  len : BitVec 32
  isDbg : Bool
  isLock : Bool

/-- The parameters passed by reference: the debug word and the cacheability flag. -/
structure Reply where
  debug : BitVec 32
  cacheable : Bool

/-- What a read through the memory interface leaves behind. -/
structure ReadResult (σ : Type) where
  state : σ
  data : Buffer
  reply : Reply
  isCacheable : Bool

/-- The memory interface `mem_if`, over the state of the component behind it. -/
structure MemIf (σ : Type) where
  memRead : σ → Request → Buffer → Reply → ReadResult σ
  memWrite : σ → Request → Buffer → Reply → σ × Reply

namespace Reply

def frozenmissSet (r : Reply) : Reply := { r with debug := r.debug ||| 0x2000 }

def cachebypassSet (r : Reply) : Reply := { r with debug := r.debug ||| 0x1000 }

def cachereadhitSet (r : Reply) (cacheSet : BitVec 32) : Reply :=
  { r with debug := r.debug &&& 0xfffff7f0 ||| cacheSet &&& 0x3 }

def cachereadmissSet (r : Reply) (cacheSet : BitVec 32) : Reply :=
  { r with debug := r.debug &&& 0xfffff7f0 ||| 0x4 ||| cacheSet &&& 0x3 }

def cachewritehitSet (r : Reply) (cacheSet : BitVec 32) : Reply :=
  { r with debug := r.debug &&& 0xfffff7f0 ||| 0x8 ||| cacheSet &&& 0x3 }

def cachewritemissSet (r : Reply) : Reply := { r with debug := r.debug &&& 0xfffff7f0 ||| 0xc }

def cacheflushSet (r : Reply) : Reply := { r with debug := r.debug ||| 0x10 }

end Reply

/-- The tag registers and the data of one cache line. -/
structure CacheLine where
  valid : BitVec 32
  atag : BitVec 32
  lrr : BitVec 32
  lru : BitVec 32
  lock : BitVec 32
  entry : Buffer

/-- The state of a cache: its lines by position, the pseudo random pointer and the counters. -/
structure VectorCache where
  cacheMem : ℕ → CacheLine
  mPseudoRand : BitVec 32
  rhits : ℕ → BitVec 64
  rmisses : BitVec 64
  whits : ℕ → BitVec 64
  wmisses : BitVec 64
  bypassops : BitVec 64

/-- The write another bus master performed. -/
structure Snoop where
  address : BitVec 32
  length : BitVec 32

/-- A way number, or the source's `-1`, as the debug macros read it. -/
def wayBits : Option ℕ → BitVec 32
  | some way => BitVec.ofNat 32 way
  | none => -1

namespace VectorCache

variable (cfg : Config)

/-- Mode bits of the cache: `00` disabled, `01` frozen, `11` enabled. -/
def checkMode (ccr : BitVec 32) : BitVec 32 :=
  match cfg.cacheType with
  | .icache => ccr &&& 0x3
  | .dcache => (ccr >>> 2) &&& 0x3

/-- Position of a line in the cache memory. -/
def position (idx : BitVec 32) (way : ℕ) : ℕ := idx.toNat * (cfg.mSets + 1) + way

/-- Number of lines in the cache memory. -/
def size : ℕ := cfg.mNumberOfVectors * cfg.sets

def lookupLine (c : VectorCache) (idx : BitVec 32) (way : ℕ) : CacheLine :=
  c.cacheMem (position cfg idx way)

def modifyLine (c : VectorCache) (idx : BitVec 32) (way : ℕ) (f : CacheLine → CacheLine) :
    VectorCache :=
  { c with cacheMem := Function.update c.cacheMem (position cfg idx way) (f
    (lookupLine cfg c idx way)) }

/-- The valid mask of an access: one bit for each word of the line. -/
def offset2valid (offset len : BitVec 32) : BitVec 32 :=
  if len = 0 ∨ offset + len > BitVec.ofNat 32 cfg.mBytesperline then 0
  else
    let word := (1 : BitVec 32) <<< (offset >>> 2).toNat
    let ret := (fun r : BitVec 32 => r ||| r <<< (1 : ℕ))^[(len >>> 2).toNat - 1] word
    if offset &&& 3 ≠ 0 ∨ len &&& 3 ≠ 0 then ret ||| ret <<< (1 : ℕ) else ret

/-- All data of the access is valid in the line. -/
def lineHits (line : CacheLine) (offset len : BitVec 32) : Bool :=
  if cfg.newLinefetchEn then line.valid &&& 0x1 != 0
  else line.valid &&& offset2valid cfg offset len == offset2valid cfg offset len

/-- No data of the access is valid in the line. -/
def lineFree (line : CacheLine) (offset len : BitVec 32) : Bool :=
  if cfg.newLinefetchEn then line.valid &&& 0x1 == 0
  else line.valid &&& offset2valid cfg offset len == 0

/-- The way holding the access, if any. -/
def locateLine (c : VectorCache) (tag idx offset len : BitVec 32) : Option ℕ :=
  (List.range (cfg.mSets + 1)).find? fun way =>
    (lookupLine cfg c idx way).atag == tag && lineHits cfg (lookupLine cfg c idx way) offset len

/-- One comparison of the LRU search. The lock is read from the LRU register, as in the source. -/
def lruStep (c : VectorCache) (idx : BitVec 32) (best : BitVec 32 × ℕ) (way : ℕ) : BitVec 32 × ℕ :=
  let tmpLru := (lookupLine cfg c idx way).lru
  let tmpLock := (lookupLine cfg c idx way).lru
  if tmpLru ≤ best.1 ∧ tmpLock = 0 then (tmpLru, way) else best

/-- The LRR search over ways `0`, `1` and `2`. Way `2` belongs to the next set; behind the last set
it is outside the cache memory. -/
def lrrSearch (c : VectorCache) (idx : BitVec 32) : List ℕ → Option ℕ
  | [] => some 1
  | way :: ways =>
    if size cfg ≤ position cfg idx way then none
    else if (lookupLine cfg c idx way).lrr = 0 ∧ (lookupLine cfg c idx way).lock = 0 then some way
    else lrrSearch c idx ways

/-- The pseudo random search for an unlocked way, with the pointer it leaves behind. -/
def randomSearch (c : VectorCache) (idx : BitVec 32) : ℕ → BitVec 32 → Option (ℕ × BitVec 32)
  | 0, _ => none
  | fuel + 1, rand =>
    let waySelect := rand.toNat % (cfg.mSets + 1)
    if (lookupLine cfg c idx waySelect).lock ≠ 0 then randomSearch c idx fuel (rand + 1)
    else some (waySelect, rand + 1)

/-- The way to refill. `none` stands for a read outside the cache memory, and for the pseudo random
loop that never ends: `2 * (mSets + 1)` successive pointers draw every way. -/
def replacementSelector (c : VectorCache) (idx : BitVec 32) : ℕ → Option (ℕ × VectorCache)
  | 0 => some (0, c)
  | 1 => some (((List.range (cfg.mSets + 1)).foldl (lruStep cfg c idx)
      (BitVec.ofNat 32 cfg.mMaxLru, 0)).2, c)
  | 2 => (lrrSearch cfg c idx [0, 1, 2]).map fun way => (way, c)
  | _ => (randomSearch cfg c idx (2 * (cfg.mSets + 1)) c.mPseudoRand).map fun r =>
      (r.1, { c with mPseudoRand := r.2 })

/-- Mark the selected way of a two way cache as the one replaced last. -/
def lrrUpdate (c : VectorCache) (idx : BitVec 32) (waySelect : ℕ) : VectorCache :=
  (List.range 2).foldl (fun c way =>
    modifyLine cfg c idx way fun line => { line with lrr := if way = waySelect then 1 else 0 }) c

/-- Age the ways above the selected one and make that one the youngest. -/
def lruUpdate (c : VectorCache) (idx : BitVec 32) (waySelect : ℕ) : VectorCache :=
  let pivot := (lookupLine cfg c idx waySelect).lru
  (List.range (cfg.mSets + 1)).foldl (fun c way =>
    modifyLine cfg c idx way fun line =>
      if way = waySelect then { line with lru := BitVec.ofNat 32 cfg.mMaxLru }
      else if line.lru > pivot then { line with lru := line.lru - 1 }
      else line) c

/-- Copy data into a line. -/
def fillEntry (c : VectorCache) (idx offset : BitVec 32) (way : ℕ) (len : BitVec 32)
    (data : Buffer) : VectorCache :=
  let pos := (offset >>> 2).toNat * 4 + (offset &&& 0x3).toNat
  modifyLine cfg c idx way fun line => { line with entry := copyTo line.entry pos data len.toNat }

/-- Give a line to another tag: mark it as replaced and invalidate what it held. -/
def takeOver (c : VectorCache) (tag idx : BitVec 32) (way : ℕ) : VectorCache :=
  if (lookupLine cfg c idx way).atag ≠ tag then
    let c := modifyLine cfg c idx way fun line => { line with atag := tag }
    let c := if cfg.mRepl = 2 then lrrUpdate cfg c idx way else c
    modifyLine cfg c idx way fun line => { line with valid := 0 }
  else c

/-- Set the valid bits of the data just written. -/
def markValid (c : VectorCache) (idx offset : BitVec 32) (way : ℕ) (len : BitVec 32) :
    VectorCache :=
  modifyLine cfg c idx way fun line =>
    { line with valid :=
        if cfg.newLinefetchEn then 0x1 else line.valid ||| offset2valid cfg offset len }

/-- Write data into a line, take the line over for the tag and set its flags. -/
def updateLine (c : VectorCache) (tag idx offset : BitVec 32) (way : ℕ) (len : BitVec 32)
    (data : Buffer) : VectorCache :=
  let c := fillEntry cfg c idx offset way len data
  let c := takeOver cfg c tag idx way
  let c := markValid cfg c idx offset way len
  if cfg.mRepl = 1 then lruUpdate cfg c idx way else c

/-- Allocate a line in a free way, else in the way the replacement strategy selects. -/
def allocateLine (c : VectorCache) (tag idx offset len : BitVec 32) (data : Buffer) :
    Option (ℕ × VectorCache) :=
  match (List.range (cfg.mSets + 1)).find? fun way =>
      lineFree cfg (lookupLine cfg c idx way) offset len with
  | some way => some (way, updateLine cfg c tag idx offset way len data)
  | none => (replacementSelector cfg c idx cfg.mRepl).map fun r =>
      (r.1, updateLine cfg r.2 tag idx offset r.1 len data)

/-- How a read proceeds: from the line, through a refill, or past the cache. -/
inductive ReadPath where
  | hit (way : ℕ)
  | refill (cacheHit : Option ℕ) (ahbAddress ahbLen : BitVec 32)
  | bypass
deriving DecidableEq, Repr

/-- The transfer a missed read issues: a line fetch, a burst to the end of the line, or a word. -/
def refillTransfer (ccr address len : BitVec 32) : BitVec 32 × BitVec 32 :=
  if cfg.newLinefetchEn then (cfg.lineAddress address, BitVec.ofNat 32 cfg.mBytesperline)
  else if cfg.burstEn ≠ 0 ∧ ccr &&& 0x10000 ≠ 0 then
    ((address >>> 2) <<< 2,
      BitVec.ofNat 32 cfg.mBytesperline - ((cfg.getOffset address >>> 2) <<< 2))
  else ((address >>> 2) <<< 2, if len = 8 then 8 else 4)

/-- The first half of `mem_read`: search the cache. -/
def memReadLookup (ccr : BitVec 32) (c : VectorCache) (r : Request) : ReadPath :=
  if r.isDbg = false ∧ r.asi ≠ 0x1c ∧ checkMode cfg ccr &&& 0x1 ≠ 0 then
    let cacheHit := locateLine cfg c (cfg.getTag r.address) (cfg.getIdx r.address)
      (cfg.getOffset r.address) r.len
    match cacheHit with
    | some way =>
      if r.asi > 3 then .hit way
      else
        let transfer := refillTransfer cfg ccr r.address r.len
        .refill cacheHit transfer.1 transfer.2
    | none =>
      let transfer := refillTransfer cfg ccr r.address r.len
      .refill cacheHit transfer.1 transfer.2
  else .bypass

/-- A read hit: copy from the line. -/
def memReadHit (c : VectorCache) (r : Request) (data : Buffer) (reply : Reply) (way : ℕ) :
    VectorCache × Buffer × Reply :=
  let idx := cfg.getIdx r.address
  let line := lookupLine cfg c idx way
  let pos := (cfg.getOffset r.address >>> 2).toNat * 4 + (r.address &&& 0x3).toNat
  let c' := if cfg.mRepl = 1 then lruUpdate cfg c idx way else c
  ({ c' with rhits := Function.update c'.rhits way (c'.rhits way + 1) },
    memcpy data (skip line.entry pos) r.len.toNat,
    reply.cachereadhitSet (BitVec.ofNat 32 way))

/-- The second half of a missed read, after the transfer returned `ahbData`. -/
def memReadRefill (ccr : BitVec 32) (c : VectorCache) (r : Request) (cacheHit : Option ℕ)
    (ahbAddress ahbLen : BitVec 32) (data ahbData : Buffer) (reply : Reply)
    (cacheableLocal : Bool) : Option (VectorCache × Buffer × Reply) := do
  let tag := cfg.getTag ahbAddress
  let idx := cfg.getIdx ahbAddress
  let offset := cfg.getOffset ahbAddress
  let step ← match cacheHit with
    | some way => some (some way, updateLine cfg c tag idx offset way ahbLen ahbData, reply)
    | none =>
      if checkMode cfg ccr &&& 0x2 ≠ 0 ∧ cacheableLocal then
        (allocateLine cfg c tag idx offset ahbLen ahbData).map fun a => (some a.1, a.2, reply)
      else if checkMode cfg ccr &&& 0x2 = 0 then some (none, c, reply.frozenmissSet)
      else some (none, c, reply)
  let source :=
    if cfg.newLinefetchEn then skip ahbData (cfg.getOffset r.address).toNat
    else skip ahbData (r.address &&& 0x3).toNat
  let c := step.2.1
  some ({ c with rmisses := c.rmisses + 1 }, memcpy data source r.len.toNat,
    step.2.2.cachereadmissSet (wayBits step.1))

section Interface

variable {σ : Type} (tlbAdaptor : MemIf σ)

/-- Read through the cache. The buffer `ahbData` is the uninitialised local array of the source. -/
def memRead (ccr : BitVec 32) (c : VectorCache) (s : σ) (r : Request) (data : Buffer)
    (reply : Reply) (ahbData : Buffer) : Option (VectorCache × σ × Buffer × Reply) :=
  match memReadLookup cfg ccr c r with
  | .hit way =>
    let h := memReadHit cfg c r data reply way
    some (h.1, s, h.2.1, h.2.2)
  | .refill cacheHit ahbAddress ahbLen =>
    let t := tlbAdaptor.memRead s { r with address := ahbAddress, len := ahbLen } ahbData reply
    (memReadRefill cfg ccr c r cacheHit ahbAddress ahbLen data t.data t.reply t.isCacheable).map
      fun h => (h.1, t.state, h.2.1, h.2.2)
  | .bypass =>
    let t := tlbAdaptor.memRead s r data reply
    some ({ c with bypassops := c.bypassops + 1 }, t.state, t.data, t.reply.cachebypassSet)

/-- The cache side of a write: update the line on a hit, allocate nothing on a miss. -/
def memWriteUpdate (c : VectorCache) (r : Request) (data : Buffer) (reply : Reply) :
    VectorCache × Reply :=
  let tag := cfg.getTag r.address
  let idx := cfg.getIdx r.address
  let offset := cfg.getOffset r.address
  match locateLine cfg c tag idx offset r.len with
  | some way =>
    let c := updateLine cfg c tag idx offset way r.len data
    ({ c with whits := Function.update c.whits way (c.whits way + 1) },
      reply.cachewritehitSet (BitVec.ofNat 32 way))
  | none => ({ c with wmisses := c.wmisses + 1 }, reply.cachewritemissSet)

/-- Write through the cache. -/
def memWrite (ccr : BitVec 32) (c : VectorCache) (s : σ) (r : Request) (data : Buffer)
    (reply : Reply) : VectorCache × σ × Reply :=
  if r.asi ≠ 0x1c ∧ checkMode cfg ccr &&& 0x1 ≠ 0 then
    let u := memWriteUpdate cfg c r data reply
    let t := tlbAdaptor.memWrite s r data u.2
    (u.1, t.1, t.2)
  else
    let t := tlbAdaptor.memWrite s r data reply
    ({ c with bypassops := c.bypassops + 1 }, t.1, t.2.cachebypassSet)

end Interface

/-- Invalidate the whole cache. -/
def flush (c : VectorCache) (reply : Reply) : VectorCache × Reply :=
  ({ c with cacheMem := fun pos =>
      if pos < size cfg then { c.cacheMem pos with valid := 0 } else c.cacheMem pos },
    reply.cacheflushSet)

/-- Invalidate a word another master wrote, in one way of its set. -/
def snoopWay (address : BitVec 32) (c : VectorCache) (way : ℕ) : VectorCache :=
  let idx := cfg.getIdx address
  if (lookupLine cfg c idx way).atag = cfg.getTag address then
    modifyLine cfg c idx way fun line =>
      { line with valid :=
          if cfg.newLinefetchEn then 0
          else line.valid &&& ~~~(offset2valid cfg (cfg.getOffset address) 4) }
  else c

/-- Invalidate a word another master wrote, in every way of its set. -/
def snoopWord (c : VectorCache) (address : BitVec 32) : VectorCache :=
  (List.range (cfg.mSets + 1)).foldl (snoopWay cfg address) c

/-- The word loop of a snoop. `none` is the loop that never ends. -/
def snoopLoop : ℕ → VectorCache → BitVec 32 → BitVec 32 → Option VectorCache
  | 0, _, _, _ => none
  | fuel + 1, c, address, bound =>
    if address < bound then snoopLoop fuel (snoopWord cfg c address) (address + 4) bound
    else some c

/-- Invalidate the words of a snooped write. The end of the range is computed modulo `2 ^ 32`, and
an address that has not left the loop after `2 ^ 30` steps repeats. -/
def snoopInvalidate (ccr : BitVec 32) (c : VectorCache) (snoop : Snoop) : Option VectorCache :=
  if checkMode cfg ccr &&& 0x3 ≠ 0 then
    snoopLoop cfg (2 ^ 30 + 1) c snoop.address (snoop.address + snoop.length)
  else some c

end VectorCache

end Socrocket.MmuCache
