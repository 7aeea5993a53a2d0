/- Socrocket/MmuCache/MmuCacheBase
   digest: The bus side of the cache controller, and masters with data caches on one loosely timed
   bus with one memory. -/

import Socrocket.Bus.Blocking
import Socrocket.MmuCache.VectorCache

set_option autoImplicit false
set_option relaxedAutoImplicit false

namespace Socrocket.MmuCache

open Socrocket.Base.ByteMemory
open Socrocket.Bus.AHBCtrl

/-- A transaction of `bus_in_fifo`. A read brings its buffer, a write points into `write_buf`. -/
inductive BusTrans where
  | read (address length : BitVec 32) (data : Buffer) (lock : Bool)
  | write (address length : BitVec 32) (dataPtr : ℕ) (lock : Bool)

def BusTrans.isWrite : BusTrans → Bool
  | .read .. => false
  | .write .. => true

/-- A load whose missed read waits for `bus_read_completed`. -/
structure Load where
  request : Request
  data : Buffer
  path : VectorCache.ReadPath

/-- A cache controller with its data cache. `busInFifo` holds the transactions on their way to the
bus, oldest first: the one `mem_access` carries, the one in the fifo and the one whose `put` waits.
`accepted` is the history of stores. -/
structure MmuCacheBase where
  dcache : VectorCache
  busInFifo : List BusTrans
  writeBuf : Buffer
  wbPointer : ℕ
  load : Option Load
  accepted : List (BlockWrite 32)

/-- The bytes of a block write and nothing behind them. -/
def block (address length : BitVec 32) (data : Buffer) : BlockWrite 32 :=
  ⟨address, memcpy (fun _ => 0) data length.toNat, length.toNat⟩

namespace BusTrans

/-- The write that a transaction performs, with the data its pointer leads to. -/
def store? (writeBuf : Buffer) : BusTrans → Option (BlockWrite 32)
  | .read .. => none
  | .write address length dataPtr _ => some (block address length (skip writeBuf dataPtr))

/-- The payload handed to the bus. -/
def payload (writeBuf : Buffer) : BusTrans → Transaction
  | .read address length data lock => ⟨false, address, data, length, lock, .incomplete⟩
  | .write address length dataPtr lock =>
    ⟨true, address, skip writeBuf dataPtr, length, lock, .incomplete⟩

end BusTrans

namespace MmuCacheBase

/-- Queue a write. The write buffer is a ring of 256 bytes. -/
def memWrite (b : MmuCacheBase) (address : BitVec 32) (data : Buffer) (length : BitVec 32)
    (lock : Bool) : MmuCacheBase :=
  { b with
    writeBuf := copyTo b.writeBuf b.wbPointer data length.toNat
    busInFifo := b.busInFifo ++ [.write address length b.wbPointer lock]
    wbPointer := (b.wbPointer + length.toNat) % 256
    accepted := b.accepted ++ [block address length data] }

/-- Queue a read. -/
def memRead (b : MmuCacheBase) (address : BitVec 32) (data : Buffer) (length : BitVec 32)
    (lock : Bool) : MmuCacheBase :=
  { b with busInFifo := b.busInFifo ++ [.read address length data lock] }

/-- The processor goes on: it waits for no read, and the fifo of one transaction took its last put. -/
def Ready (b : MmuCacheBase) : Prop := b.load.isNone ∧ b.busInFifo.length ≤ 2

instance (b : MmuCacheBase) : Decidable b.Ready := inferInstanceAs (Decidable (_ ∧ _))

variable (cfg : Config) (ccr : BitVec 32)

/-- A store of the processor: its own cache first, then the fifo. -/
def store (b : MmuCacheBase) (r : Request) (data : Buffer) (reply : Reply) : MmuCacheBase :=
  let dcache :=
    if r.asi ≠ 0x1c ∧ VectorCache.checkMode cfg ccr &&& 0x1 ≠ 0 then
      (VectorCache.memWriteUpdate cfg b.dcache r data reply).1
    else { b.dcache with bypassops := b.dcache.bypassops + 1 }
  { b with dcache := dcache }.memWrite r.address data r.len r.isLock

/-- A load of the processor: from its own cache, or a read in the fifo. -/
def startLoad (b : MmuCacheBase) (r : Request) (data : Buffer) (reply : Reply) (ahbData : Buffer) :
    MmuCacheBase :=
  let path := VectorCache.memReadLookup cfg ccr b.dcache r
  match path with
  | .hit way => { b with dcache := (VectorCache.memReadHit cfg b.dcache r data reply way).1 }
  | .refill _ ahbAddress ahbLen =>
    { b with load := some ⟨r, data, path⟩ }.memRead ahbAddress ahbData ahbLen r.isLock
  | .bypass => { b with load := some ⟨r, data, path⟩ }.memRead r.address data r.len r.isLock

/-- `bus_read_completed`: the load that waits takes the data of the bus. -/
def endLoad (b : MmuCacheBase) (busData : Buffer) (reply : Reply) (isCacheable : Bool) :
    Option MmuCacheBase :=
  b.load.bind fun ld =>
    match ld.path with
    | .refill cacheHit ahbAddress ahbLen =>
      (VectorCache.memReadRefill cfg ccr b.dcache ld.request cacheHit ahbAddress ahbLen ld.data
        busData reply isCacheable).map fun h => { b with dcache := h.1, load := none }
    | _ => some { b with
        dcache := { b.dcache with bypassops := b.dcache.bypassops + 1 }
        load := none }

/-- A controller does not snoop itself. -/
def snoopingCallBack (masterId : ℕ) (b : MmuCacheBase) (writer : ℕ) (snoop : Snoop) :
    Option MmuCacheBase :=
  if writer ≠ masterId then
    (VectorCache.snoopInvalidate cfg ccr b.dcache snoop).map fun c => { b with dcache := c }
  else some b

end MmuCacheBase

/-- Masters on a bus with one memory. `performed` is the history of the stores that reached it. -/
structure Cluster (n : ℕ) where
  masters : Fin n → MmuCacheBase
  bus : Blocking
  memory : Memory 32
  performed : List (Fin n × BlockWrite 32)

/-- What happens in a cluster: stores and loads of the processors, the grant of the bus to the head
of a fifo, and the end of the granted transfer. -/
inductive ClusterStep (n : ℕ) where
  | store (i : Fin n) (r : Request) (data : Buffer) (reply : Reply)
  | load (i : Fin n) (r : Request) (data : Buffer) (reply : Reply) (ahbData : Buffer)
  | grant (i : Fin n)
  | complete (k : ℕ) (reply : Reply)

/-- The memory performs a transfer at once. -/
def memorySlave (_ : ℕ) (memory : Memory 32) (t : Transaction) : Memory 32 × Transaction :=
  if t.isWrite then
    (writeBytes memory t.address t.data t.dataLength.toNat, { t with response := .ok })
  else
    (memory, { t with
      data := memcpy t.data (bytesAt memory t.address) t.dataLength.toNat
      response := .ok })

/-- The results of all masters, when every master has one. -/
def collect {n : ℕ} {α : Type} (f : Fin n → Option α) : Option (Fin n → α) :=
  if all : ∀ i, (f i).isSome then some fun i => (f i).get (all i) else none

namespace Cluster

variable {n : ℕ} (cfg : Fin n → Config) (ccr : Fin n → BitVec 32) (g : Generics) (pnp : Pnp)
  (cacheableAt : BitVec 32 → Bool)

/-- Broadcast a write to all masters. -/
def broadcast (s : Cluster n) (writer : ℕ) (snoop : Snoop) : Option (Cluster n) :=
  (collect fun i => (s.masters i).snoopingCallBack (cfg i) (ccr i) i writer snoop).map
    fun masters => { s with masters := masters }

/-- Grant the bus to the head of a fifo. The memory performs the transfer. -/
def grant (s : Cluster n) (i : Fin n) : Option (Cluster n) :=
  match (s.masters i).busInFifo with
  | [] => none
  | t :: rest =>
    (bTransport g pnp memorySlave s.bus s.memory i (t.payload (s.masters i).writeBuf)).map
      fun (bus, memory) =>
        { masters := Function.update s.masters i { s.masters i with busInFifo := rest }
          bus := bus
          memory := memory
          performed := s.performed ++ ((t.store? (s.masters i).writeBuf).map (i, ·)).toList }

/-- End a granted transfer: a write is snooped, a read wakes its load. -/
def complete (s : Cluster n) (k : ℕ) (reply : Reply) : Option (Cluster n) :=
  (bTransportEnd s.bus k).bind fun (bus, snoop) =>
    match snoop with
    | some (writer, address, length) =>
      { s with bus := bus }.broadcast cfg ccr writer ⟨address, length⟩
    | none =>
      (s.bus.inside[k]?).bind fun call =>
        if inside : call.id < n then
          let i : Fin n := ⟨call.id, inside⟩
          if call.trans.isWrite then some { s with bus := bus }
          else
            ((s.masters i).endLoad (cfg i) (ccr i) call.trans.data reply
                (cacheableAt call.trans.address)).map fun b =>
              { s with masters := Function.update s.masters i b, bus := bus }
        else none

/-- Perform one step. A processor that waits takes none. -/
def step (s : Cluster n) : ClusterStep n → Option (Cluster n)
  | .store i r data reply =>
    if (s.masters i).Ready then
      some { s with masters :=
        Function.update s.masters i ((s.masters i).store (cfg i) (ccr i) r data reply) }
    else none
  | .load i r data reply ahbData =>
    if (s.masters i).Ready then
      some { s with masters :=
        Function.update s.masters i ((s.masters i).startLoad (cfg i) (ccr i) r data reply ahbData) }
    else none
  | .grant i => s.grant g pnp i
  | .complete k reply => s.complete cfg ccr cacheableAt k reply

end Cluster

end Socrocket.MmuCache
