/- Socrocket/MmuCache/MultiMaster
   digest: The data caches of all masters on one bus hold memory whenever nothing is under way. -/

import Socrocket.Base.StoreBuffer
import Socrocket.MmuCache.MmuCacheBase
import Socrocket.MmuCache.WriteThrough

set_option autoImplicit false
set_option relaxedAutoImplicit false

namespace Socrocket.MmuCache

open Socrocket.Base.ByteMemory
open Socrocket.Base.Run
open Socrocket.Base.StoreBuffer
open Socrocket.Bus
open Socrocket.Bus.AHBCtrl

theorem block_apply (memory : Memory 32) (address length : BitVec 32) (data : Buffer) :
    (block address length data).apply memory = writeBytes memory address data length.toNat := by
  funext a
  change writeBytes memory address (memcpy (fun _ => 0) data length.toNat) length.toNat a = _
  by_cases range : InRange address length.toNat a
  · rw [writeBytes_of_inRange range, writeBytes_of_inRange range, memcpy_of_lt range]
  · rw [writeBytes_of_not_inRange range, writeBytes_of_not_inRange range]

theorem block_skip_copyTo (writeBuf data : Buffer) (address length : BitVec 32) (next : ℕ) :
    block address length (skip (copyTo writeBuf next data length.toNat) next) =
      block address length data := by
  have bytes : memcpy (fun _ => 0) (skip (copyTo writeBuf next data length.toNat) next) length.toNat =
      memcpy (fun _ => 0) data length.toNat := by
    funext i
    unfold memcpy
    split_ifs with byte
    · rw [skip, copyTo, if_pos (by omega), Nat.add_sub_cancel_left]
    · rfl
  rw [block, block, bytes]

namespace BusTrans

/-- A range of `write_buf` ends before the data of a transaction, or begins behind it. -/
def Beside (next length : ℕ) : BusTrans → Prop
  | .read .. => True
  | .write _ len dataPtr _ => next + length ≤ dataPtr ∨ dataPtr + len.toNat ≤ next

theorem store?_copyTo {t : BusTrans} {writeBuf data : Buffer} {next length : ℕ}
    (beside : t.Beside next length) :
    t.store? (copyTo writeBuf next data length) = t.store? writeBuf := by
  cases t with
  | read => rfl
  | write address len dataPtr lock =>
    change next + length ≤ dataPtr ∨ dataPtr + len.toNat ≤ next at beside
    have bytes : memcpy (fun _ => 0) (skip (copyTo writeBuf next data length) dataPtr) len.toNat =
        memcpy (fun _ => 0) (skip writeBuf dataPtr) len.toNat := by
      funext i
      unfold memcpy
      split_ifs with byte
      · rw [skip, copyTo, if_neg (by omega)]
        rfl
      · rfl
    rw [store?, store?, block, block, bytes]

theorem filterMap_store?_copyTo {l : List BusTrans} {writeBuf data : Buffer} {next length : ℕ}
    (beside : ∀ t ∈ l, t.Beside next length) :
    l.filterMap (store? (copyTo writeBuf next data length)) = l.filterMap (store? writeBuf) :=
  List.filterMap_congr fun t member => store?_copyTo (beside t member)

end BusTrans

namespace MmuCacheBase

variable {b : MmuCacheBase} {address length : BitVec 32} {data : Buffer} {lock : Bool}

/-- The stores on their way to the bus, oldest first. -/
def stores (b : MmuCacheBase) : List (BlockWrite 32) :=
  b.busInFifo.filterMap (BusTrans.store? b.writeBuf)

/-- Every queued write lies behind the pointer of the ring, not further than eight bytes for each
transaction since. -/
def Behind (next : ℕ) : List BusTrans → Prop
  | [] => True
  | .read .. :: rest => Behind next rest
  | .write _ length dataPtr _ :: rest =>
    (dataPtr < 256 ∧ ∃ d, length.toNat ≤ d ∧ d ≤ 8 * (rest.length + 1) ∧ (dataPtr + d) % 256 = next) ∧
      Behind next rest

theorem behind_read {next : ℕ} {fifo : List BusTrans} (behind : Behind next fifo) :
    Behind next (fifo ++ [.read address length data lock]) := by
  induction fifo with
  | nil => trivial
  | cons t fifo ih =>
    cases t with
    | read => exact ih behind
    | write =>
      obtain ⟨⟨inside, d, least, most, place⟩, rest⟩ := behind
      refine ⟨⟨inside, d, least, ?_, place⟩, ih rest⟩
      change d ≤ 8 * ((fifo ++ [_]).length + 1)
      rw [List.length_append, List.length_singleton]
      omega

theorem behind_write {next : ℕ} {fifo : List BusTrans} (inside : next < 256)
    (short : length.toNat ≤ 8) (behind : Behind next fifo) :
    Behind ((next + length.toNat) % 256) (fifo ++ [.write address length next lock]) := by
  induction fifo with
  | nil => exact ⟨⟨inside, length.toNat, le_rfl, by rw [List.length_nil]; omega, rfl⟩, trivial⟩
  | cons t fifo ih =>
    cases t with
    | read => exact ih behind
    | write =>
      obtain ⟨⟨below, d, least, most, place⟩, rest⟩ := behind
      refine ⟨⟨below, d + length.toNat, by omega, ?_, by omega⟩, ih rest⟩
      change d + length.toNat ≤ 8 * ((fifo ++ [_]).length + 1)
      rw [List.length_append, List.length_singleton]
      omega

/-- The ring has not come round to the queued writes while there are at most three. -/
theorem beside_of_behind {next : ℕ} {fifo : List BusTrans} (short : length.toNat ≤ 8)
    (few : fifo.length ≤ 3) (behind : Behind next fifo) :
    ∀ t ∈ fifo, t.Beside next length.toNat := by
  induction fifo with
  | nil => exact fun t member => absurd member List.not_mem_nil
  | cons t fifo ih =>
    rw [List.length_cons] at few
    rw [List.forall_mem_cons]
    cases t with
    | read => exact ⟨trivial, ih (by omega) behind⟩
    | write a l p lk =>
      obtain ⟨⟨below, d, least, most, place⟩, rest⟩ := behind
      refine ⟨?_, ih (by omega) rest⟩
      change next + length.toNat ≤ p ∨ p + l.toNat ≤ next
      omega

theorem stores_fill {next : ℕ} {fifo : List BusTrans} {writeBuf : Buffer}
    (short : length.toNat ≤ 8) (few : fifo.length ≤ 2) (behind : Behind next fifo) :
    fifo.filterMap (BusTrans.store? (copyTo writeBuf next data length.toNat)) =
      fifo.filterMap (BusTrans.store? writeBuf) :=
  BusTrans.filterMap_store?_copyTo (beside_of_behind short (Nat.le_succ_of_le few) behind)

/-- The ring keeps the data of the queued writes. -/
structure Ring (b : MmuCacheBase) : Prop where
  pointer : b.wbPointer < 256
  behind : Behind b.wbPointer b.busInFifo

theorem ring_memRead (ring : Ring b) : Ring (b.memRead address data length lock) :=
  ⟨ring.pointer, behind_read ring.behind⟩

theorem ring_memWrite (ring : Ring b) (short : length.toNat ≤ 8) :
    Ring (b.memWrite address data length lock) :=
  ⟨Nat.mod_lt _ (by decide), behind_write ring.pointer short ring.behind⟩

theorem ring_tail {t : BusTrans} {rest : List BusTrans} (ring : Ring b)
    (fifo : b.busInFifo = t :: rest) : Ring { b with busInFifo := rest } := by
  have behind := ring.behind
  rw [fifo] at behind
  refine ⟨ring.pointer, ?_⟩
  cases t with
  | read => exact behind
  | write => exact behind.2

theorem stores_memRead : (b.memRead address data length lock).stores = b.stores := by
  change (b.busInFifo ++ [_]).filterMap _ = _
  rw [List.filterMap_append]
  exact List.append_nil _

theorem stores_memWrite (ring : Ring b) (short : length.toNat ≤ 8) (few : b.busInFifo.length ≤ 2) :
    (b.memWrite address data length lock).stores = b.stores ++ [block address length data] := by
  change (b.busInFifo ++ [_]).filterMap _ = _
  rw [List.filterMap_append]
  change b.busInFifo.filterMap (BusTrans.store? (copyTo b.writeBuf b.wbPointer data length.toNat)) ++
    [block address length (skip (copyTo b.writeBuf b.wbPointer data length.toNat) b.wbPointer)] = _
  rw [stores_fill short few ring.behind, block_skip_copyTo, stores]

end MmuCacheBase

section Bus

variable {g : Generics} {pnp : Pnp} {bus bus' : Blocking} {memory memory' : Memory 32}
  {t : Transaction} {id : ℕ}

/-- An address that the bus hands to its memory. -/
def Decodes (g : Generics) (d : Decoder) (address : BitVec 32) : Prop :=
  isPnp g address = false ∧ ∀ found ∈ getIndex d address, 0 ≤ found.1

theorem bTransport_memory (decodes : Decodes g bus.decoder t.address)
    (granted : bTransport g pnp memorySlave bus memory id t = some (bus', memory')) :
    bus.busy = false ∧ memory' = (memorySlave 0 memory t).1 ∧ bus'.busy = true ∧
      bus'.inside = bus.inside ++ [⟨id, (memorySlave 0 memory t).2, true⟩] := by
  unfold bTransport at granted
  by_cases taken : bus.busy ∨ (bus.isLock ∧ id ≠ bus.lockMaster)
  · rw [if_pos taken] at granted
    cases granted
  · rw [if_neg taken] at granted
    dsimp only at granted
    rw [if_neg (by rw [decodes.1]; exact Bool.false_ne_true), Option.map_eq_some_iff] at granted
    obtain ⟨⟨index, decoder⟩, found, eq⟩ := granted
    have natural : 0 ≤ index := decodes.2 _ found
    dsimp only at eq
    rw [if_pos natural, Prod.mk.injEq] at eq
    obtain ⟨rfl, rfl⟩ := eq
    exact ⟨Bool.eq_false_iff.mpr fun busy => taken (.inl busy), rfl, rfl, rfl⟩

theorem bTransportEnd_single {call : Call} (alone : bus.inside = [call]) (served : call.served = true)
    {k : ℕ} {snoop : Option (ℕ × BitVec 32 × BitVec 32)}
    (ended : bTransportEnd bus k = some (bus', snoop)) :
    k = 0 ∧ bus'.busy = false ∧ bus'.inside = [] ∧
      snoop = if call.trans.isWrite then some (call.id, call.trans.address, call.trans.dataLength)
        else none := by
  rw [bTransportEnd, alone, Option.map_eq_some_iff] at ended
  obtain ⟨same, found, eq⟩ := ended
  rw [List.getElem?_singleton] at found
  split_ifs at found with first
  rw [Option.some.injEq] at found
  subst found first
  rw [Prod.mk.injEq] at eq
  obtain ⟨rfl, rfl⟩ := eq
  refine ⟨rfl, rfl, rfl, ?_⟩
  simp only [served, true_and]

theorem collect_eq {n : ℕ} {α : Type} {f : Fin n → Option α} {r : Fin n → α}
    (each : ∀ i, f i = some (r i)) : collect f = some r := by
  have all : ∀ i, (f i).isSome := by
    intro i
    rw [each i]
    rfl
  rw [collect, dif_pos all, Option.some.injEq]
  funext i
  exact Option.get_of_eq_some (all i) (each i)

end Bus

section Loads

/-- What a load that missed remembers: the line fetch of its address. -/
structure Missed (cfg : Config) (b : MmuCacheBase) (ld : Load) (cacheHit : Option ℕ) : Prop where
  path : ld.path = .refill cacheHit (cfg.lineAddress ld.request.address)
    (BitVec.ofNat 32 cfg.mBytesperline)
  ready : VectorCache.RefillReady cfg b.dcache ld.request.address cacheHit
  inside : cfg.InsideLine ld.request.address ld.request.len.toNat

/-- Every call of a master inside the bus is a write. -/
def OwnWrites (inside : List Call) (id : ℕ) : Prop :=
  ∀ call ∈ inside, call.id = id → call.trans.isWrite = true

/-- How far the load of a master is: none waits, its read is queued behind the stores, or its read
is on the bus with the bytes of memory. -/
inductive LoadState (cfg : Config) (b : MmuCacheBase) (inside : List Call) (memory : Memory 32)
    (id : ℕ) : Prop where
  | running (idle : b.load = none) (stores : ∀ t ∈ b.busInFifo, t.isWrite = true)
      (own : OwnWrites inside id)
  | queued (ld : Load) (cacheHit : Option ℕ) (older : List BusTrans) (data : Buffer) (lock : Bool)
      (waits : b.load = some ld) (missed : Missed cfg b ld cacheHit)
      (fifo : b.busInFifo = older ++ [.read (cfg.lineAddress ld.request.address)
        (BitVec.ofNat 32 cfg.mBytesperline) data lock])
      (stores : ∀ t ∈ older, t.isWrite = true) (own : OwnWrites inside id)
  | fetched (ld : Load) (cacheHit : Option ℕ) (waits : b.load = some ld)
      (missed : Missed cfg b ld cacheHit) (fifo : b.busInFifo = [])
      (brought : ∀ call ∈ inside, call.id = id → ∃ data, call.trans.data = memcpy data
        (bytesAt memory (cfg.lineAddress ld.request.address)) cfg.mBytesperline)

variable {cfg : Config} {b : MmuCacheBase} {inside : List Call} {memory memory' : Memory 32} {id : ℕ}

theorem LoadState.other_granted (state : LoadState cfg b [] memory id) {call : Call}
    (other : call.id ≠ id) : LoadState cfg b [call] memory' id := by
  have foreign {p : Call → Prop} : ∀ c ∈ [call], c.id = id → p c := by
    intro c member own
    rw [List.mem_singleton] at member
    exact absurd (member ▸ own) other
  cases state with
  | running idle stores own => exact .running idle stores foreign
  | queued ld cacheHit older data lock waits missed fifo stores own =>
    exact .queued ld cacheHit older data lock waits missed fifo stores foreign
  | fetched ld cacheHit waits missed fifo brought =>
    exact .fetched ld cacheHit waits missed fifo foreign

theorem LoadState.snooped (linefetch : cfg.newLinefetchEn = true)
    (state : LoadState cfg b inside memory id) (base : BitVec 32) (words : ℕ) :
    LoadState cfg { b with dcache := VectorCache.snoopWords cfg words b.dcache base } [] memory id := by
  have still {ld : Load} {cacheHit : Option ℕ} (missed : Missed cfg b ld cacheHit) :
      Missed cfg { b with dcache := VectorCache.snoopWords cfg words b.dcache base } ld cacheHit := by
    refine ⟨missed.path, ?_, missed.inside⟩
    have ready := missed.ready
    cases cacheHit with
    | none => exact fun w held => ready w (VectorCache.holds_snoopWords linefetch held).1
    | some way =>
      exact ⟨ready.1, fun v held => ready.2 v (VectorCache.holds_snoopWords linefetch held).1⟩
  have empty {p : Call → Prop} : ∀ c ∈ ([] : List Call), c.id = id → p c := by
    intro c member
    cases member
  cases state with
  | running idle stores own => exact .running idle stores empty
  | queued ld cacheHit older data lock waits missed fifo stores own =>
    exact .queued ld cacheHit older data lock waits (still missed) fifo stores empty
  | fetched ld cacheHit waits missed fifo brought =>
    exact .fetched ld cacheHit waits (still missed) fifo empty

end Loads

namespace Cluster

variable {n : ℕ} {cfg : Fin n → Config} {ccr : Fin n → BitVec 32} {g : Generics} {pnp : Pnp}
  {cacheableAt : BitVec 32 → Bool} {start : Memory 32} {s t : Cluster n}

/-- The memory, the stores under way and the history of a cluster. -/
def buffers (s : Cluster n) : Buffers (Fin n) 32 where
  memory := s.memory
  pending i := (s.masters i).stores
  pushed i := (s.masters i).accepted
  committed := s.performed

/-- A write that every data cache can snoop: it stays inside one line of each, and the loop over its
words does not reach the end of the address space. -/
def Snoopable (cfg : Fin n → Config) (address length : BitVec 32) : Prop :=
  (∀ j, (cfg j).InsideLine address length.toNat) ∧
    address.toNat + 4 * ((length.toNat + 3) / 4) < 2 ^ 32

/-- The bytes of a write on the bus, as the caches of the other masters hold them. -/
def Stale (s : Cluster n) (i : Fin n) (a : BitVec 32) : Prop :=
  ∃ call ∈ s.bus.inside, call.trans.isWrite = true ∧ call.id ≠ i ∧
    InRange call.trans.address call.trans.dataLength.toNat a

/-- A call on the bus was served by the memory, and a write can be snooped. -/
structure OnBus (cfg : Fin n → Config) (call : Call) : Prop where
  master : call.id < n
  served : call.served = true
  snoopable : call.trans.isWrite = true → Snoopable cfg call.trans.address call.trans.dataLength

/-- Every data cache shows memory with the own stores under way performed, except for a write of
another master that is on the bus. -/
structure Coherence (cfg : Fin n → Config) (start : Memory 32) (s : Cluster n) : Prop where
  order : InOrder start s.buffers
  shows : ∀ i, VectorCache.Shows (cfg i) (s.masters i).dcache (view s.buffers i) (s.Stale i)
  ring : ∀ i, (s.masters i).Ring
  loads : ∀ i, LoadState (cfg i) (s.masters i) s.bus.inside s.memory i
  queued : ∀ i address length dataPtr lock,
    BusTrans.write address length dataPtr lock ∈ (s.masters i).busInFifo → Snoopable cfg address length
  idle : s.bus.busy = false → s.bus.inside = []
  onBus : s.bus.inside = [] ∨ ∃ call, s.bus.inside = [call] ∧ OnBus cfg call

theorem buffers_update (s : Cluster n) (i : Fin n) (b : MmuCacheBase) :
    ({ s with masters := Function.update s.masters i b } : Cluster n).buffers =
      { s.buffers with
        pending := Function.update s.buffers.pending i b.stores
        pushed := Function.update s.buffers.pushed i b.accepted } := by
  have pending : (fun j => (Function.update s.masters i b j).stores) =
      Function.update s.buffers.pending i b.stores := by
    funext j
    by_cases own : j = i
    · rw [own, Function.update_self, Function.update_self]
    · rw [Function.update_of_ne own, Function.update_of_ne own]
      rfl
  have pushed : (fun j => (Function.update s.masters i b j).accepted) =
      Function.update s.buffers.pushed i b.accepted := by
    funext j
    by_cases own : j = i
    · rw [own, Function.update_self, Function.update_self]
    · rw [Function.update_of_ne own, Function.update_of_ne own]
      rfl
  rw [buffers]
  dsimp only
  rw [pending, pushed]
  rfl

theorem Coherence.of_master (inv : Coherence cfg start s) {i : Fin n} {b : MmuCacheBase}
    {buffers : Buffers (Fin n) 32}
    (updated : ({ s with masters := Function.update s.masters i b } : Cluster n).buffers = buffers)
    (order : InOrder start buffers)
    (shows : VectorCache.Shows (cfg i) b.dcache (view buffers i) (s.Stale i))
    (others : ∀ j, j ≠ i → view buffers j = view s.buffers j) (ring : b.Ring)
    (load : LoadState (cfg i) b s.bus.inside s.memory i)
    (queued : ∀ address length dataPtr lock,
      BusTrans.write address length dataPtr lock ∈ b.busInFifo → Snoopable cfg address length) :
    Coherence cfg start { s with masters := Function.update s.masters i b } where
  order := updated ▸ order
  shows j := by
    rw [updated]
    change VectorCache.Shows (cfg j) (Function.update s.masters i b j).dcache _ (s.Stale j)
    by_cases own : j = i
    · subst own
      rw [Function.update_self]
      exact shows
    · rw [Function.update_of_ne own, others j own]
      exact inv.shows j
  ring j := by
    change (Function.update s.masters i b j).Ring
    by_cases own : j = i
    · rw [own, Function.update_self]
      exact ring
    · rw [Function.update_of_ne own]
      exact inv.ring j
  loads j := by
    change LoadState (cfg j) (Function.update s.masters i b j) s.bus.inside s.memory j
    by_cases own : j = i
    · subst own
      rw [Function.update_self]
      exact load
    · rw [Function.update_of_ne own]
      exact inv.loads j
  queued j := by
    change ∀ address length dataPtr lock, BusTrans.write address length dataPtr lock ∈
      (Function.update s.masters i b j).busInFifo → _
    by_cases own : j = i
    · rw [own, Function.update_self]
      exact queued
    · rw [Function.update_of_ne own]
      exact inv.queued j
  idle := inv.idle
  onBus := inv.onBus

/-- A processor that goes on has no load waiting and only writes in its fifo. -/
theorem Coherence.ready (inv : Coherence cfg start s) {i : Fin n} (ready : (s.masters i).Ready) :
    (∀ t ∈ (s.masters i).busInFifo, t.isWrite = true) ∧ OwnWrites s.bus.inside i := by
  have none_waits := ready.1
  cases inv.loads i with
  | running idle stores own => exact ⟨stores, own⟩
  | queued ld cacheHit older data lock waits =>
    rw [waits] at none_waits
    cases none_waits
  | fetched ld cacheHit waits =>
    rw [waits] at none_waits
    cases none_waits

theorem coherence_store (linefetch : ∀ i, (cfg i).newLinefetchEn = true)
    (searching : ∀ i, Searching (cfg i) (ccr i)) (inv : Coherence cfg start s) {i : Fin n}
    {r : Request} (plain : PlainAccess (cfg i) r) (snoopable : Snoopable cfg r.address r.len)
    (data : Buffer) (reply : Reply) (ready : (s.masters i).Ready) :
    Coherence cfg start { s with
      masters := Function.update s.masters i
        ((s.masters i).store (cfg i) (ccr i) r data reply) } := by
  obtain ⟨stores, own⟩ := inv.ready ready
  have short : r.len.toNat ≤ 8 := by
    rcases plain.2.1 with h | h | h | h <;> rw [h] <;> decide
  have searched : r.asi ≠ 0x1c ∧ VectorCache.checkMode (cfg i) (ccr i) &&& 0x1 ≠ 0 :=
    ⟨plain.1, (searching i).low_bit⟩
  rw [MmuCacheBase.store, if_pos searched]
  generalize cached : (VectorCache.memWriteUpdate (cfg i) (s.masters i).dcache r data reply).1 = c
  have shown := (inv.shows i).write_update (linefetch i) plain.2.2 data reply
  rw [cached] at shown
  have ring : ({ s.masters i with dcache := c } : MmuCacheBase).Ring :=
    ⟨(inv.ring i).pointer, (inv.ring i).behind⟩
  have pushed : ({ s with
      masters := Function.update s.masters i
        ({ s.masters i with dcache := c }.memWrite r.address data r.len r.isLock) } :
        Cluster n).buffers = push s.buffers i (block r.address r.len data) := by
    rw [buffers_update, MmuCacheBase.stores_memWrite ring short ready.2]
    rfl
  apply inv.of_master pushed
  · exact inOrder_push inv.order
  · rw [view_push_self, block_apply]
    exact shown
  · intro j other
    exact view_push_other other
  · exact MmuCacheBase.ring_memWrite ring short
  · refine .running (Option.isNone_iff_eq_none.mp ready.1) (fun t member => ?_) own
    rcases List.mem_append.mp member with old | new
    · exact stores t old
    · rw [List.mem_singleton.mp new]
      rfl
  · intro address length dataPtr lock member
    rcases List.mem_append.mp member with old | new
    · exact inv.queued i address length dataPtr lock old
    · obtain ⟨rfl, rfl, -, -⟩ := BusTrans.write.inj (List.mem_singleton.mp new)
      exact snoopable

theorem buffers_same {i : Fin n} {b : MmuCacheBase} (stores : b.stores = (s.masters i).stores)
    (accepted : b.accepted = (s.masters i).accepted) :
    ({ s with masters := Function.update s.masters i b } : Cluster n).buffers = s.buffers := by
  rw [buffers_update, stores, accepted]
  change { s.buffers with
    pending := Function.update s.buffers.pending i (s.buffers.pending i)
    pushed := Function.update s.buffers.pushed i (s.buffers.pushed i) } = s.buffers
  rw [Function.update_eq_self, Function.update_eq_self]

theorem coherence_load (linefetch : ∀ i, (cfg i).newLinefetchEn = true)
    (searching : ∀ i, Searching (cfg i) (ccr i)) (inv : Coherence cfg start s) {i : Fin n}
    {r : Request} (plain : PlainAccess (cfg i) r) (bus : r.isDbg = false) (data : Buffer)
    (reply : Reply) (ahbData : Buffer) (ready : (s.masters i).Ready) :
    Coherence cfg start { s with
      masters := Function.update s.masters i
        ((s.masters i).startLoad (cfg i) (ccr i) r data reply ahbData) } := by
  obtain ⟨stores, own⟩ := inv.ready ready
  have idle := Option.isNone_iff_eq_none.mp ready.1
  have ring := inv.ring i
  rw [MmuCacheBase.startLoad]
  cases path : VectorCache.memReadLookup (cfg i) (ccr i) (s.masters i).dcache r with
  | hit way =>
    dsimp only
    refine inv.of_master (buffers_same ?_ ?_) inv.order ?_ ?_ ?_ ?_ ?_
    · rfl
    · rfl
    · exact (inv.shows i).after_read_hit r way data reply
    · intro j other
      rfl
    · exact ⟨ring.pointer, ring.behind⟩
    · exact .running idle stores own
    · exact inv.queued i
  | refill cacheHit ahbAddress ahbLen =>
    obtain ⟨rfl, rfl, refillReady⟩ :=
      VectorCache.memReadLookup_refill (linefetch i) (inv.shows i).toWellTagged path
    dsimp only
    refine inv.of_master (buffers_same ?_ ?_) inv.order ?_ ?_ ?_ ?_ ?_
    · exact MmuCacheBase.stores_memRead
    · rfl
    · exact inv.shows i
    · intro j other
      rfl
    · have waits : ({ s.masters i with load := some ⟨r, data, .refill cacheHit
          ((cfg i).lineAddress r.address) (BitVec.ofNat 32 (cfg i).mBytesperline)⟩ } :
            MmuCacheBase).Ring := ⟨ring.pointer, ring.behind⟩
      exact MmuCacheBase.ring_memRead waits
    · exact .queued ⟨r, data, _⟩ cacheHit _ ahbData r.isLock rfl ⟨rfl, refillReady, plain.2.2⟩ rfl
        stores own
    · intro address length dataPtr lock member
      rcases List.mem_append.mp member with old | new
      · exact inv.queued i address length dataPtr lock old
      · cases List.mem_singleton.mp new
  | bypass =>
    have searched : r.isDbg = false ∧ r.asi ≠ 0x1c ∧
        VectorCache.checkMode (cfg i) (ccr i) &&& 0x1 ≠ 0 :=
      ⟨bus, plain.1, (searching i).low_bit⟩
    rw [VectorCache.memReadLookup, if_pos searched] at path
    cases found : VectorCache.locateLine (cfg i) (s.masters i).dcache ((cfg i).getTag r.address)
        ((cfg i).getIdx r.address) ((cfg i).getOffset r.address) r.len with
    | none => simp only [found, reduceCtorEq] at path
    | some way =>
      by_cases cached : r.asi > 3
      · simp only [found, cached, if_true, reduceCtorEq] at path
      · simp only [found, cached, if_false, reduceCtorEq] at path

theorem Coherence.of_grant (inv : Coherence cfg start s) {i : Fin n} {head : BusTrans}
    {rest : List BusTrans} {bus : Blocking} {memory : Memory 32}
    {performed : List (Fin n × BlockWrite 32)} {call : Call} (free : s.bus.inside = [])
    (inside : bus.inside = [call]) (busy : bus.busy = true) (own : call.id = i)
    (onBus : OnBus cfg call) (fifo : (s.masters i).busInFifo = head :: rest)
    {buffers : Buffers (Fin n) 32}
    (moved : (⟨Function.update s.masters i { s.masters i with busInFifo := rest }, bus, memory,
      performed⟩ : Cluster n).buffers = buffers)
    (order : InOrder start buffers)
    (views : ∀ j a, (call.trans.isWrite = true → j ≠ i →
      ¬ InRange call.trans.address call.trans.dataLength.toNat a) →
        view buffers j a = view s.buffers j a)
    (load : LoadState (cfg i) { s.masters i with busInFifo := rest } [call] memory i) :
    Coherence cfg start ⟨Function.update s.masters i { s.masters i with busInFifo := rest }, bus,
      memory, performed⟩ where
  order := moved ▸ order
  shows j := by
    rw [moved]
    have kept : (Function.update s.masters i { s.masters i with busInFifo := rest } j).dcache =
        (s.masters j).dcache := by
      by_cases same : j = i
      · rw [same, Function.update_self]
      · rw [Function.update_of_ne same]
    change VectorCache.Shows (cfg j) (Function.update s.masters i _ j).dcache _ _
    rw [kept]
    refine (inv.shows j).weaken ?_ ?_
    · rintro a ⟨c, member, -⟩
      rw [free] at member
      cases member
    · intro a fresh
      apply views
      intro write other range
      refine fresh ⟨call, ?_, write, ?_, range⟩
      · rw [inside]
        exact List.mem_singleton_self call
      · rw [own]
        exact fun same => other (Fin.ext same.symm)
  ring j := by
    change (Function.update s.masters i { s.masters i with busInFifo := rest } j).Ring
    by_cases same : j = i
    · rw [same, Function.update_self]
      exact MmuCacheBase.ring_tail (inv.ring i) fifo
    · rw [Function.update_of_ne same]
      exact inv.ring j
  loads j := by
    change LoadState (cfg j) (Function.update s.masters i { s.masters i with busInFifo := rest } j)
      bus.inside memory j
    rw [inside]
    by_cases same : j = i
    · subst same
      rw [Function.update_self]
      exact load
    · rw [Function.update_of_ne same]
      have before := inv.loads j
      rw [free] at before
      refine before.other_granted fun mine => same ?_
      exact Fin.ext (mine.symm.trans own)
  queued j := by
    change ∀ address length dataPtr lock, BusTrans.write address length dataPtr lock ∈
      (Function.update s.masters i { s.masters i with busInFifo := rest } j).busInFifo → _
    by_cases same : j = i
    · rw [same, Function.update_self]
      intro address length dataPtr lock member
      apply inv.queued i address length dataPtr lock
      rw [fifo]
      exact List.mem_cons_of_mem _ member
    · rw [Function.update_of_ne same]
      exact inv.queued j
  idle free' := by
    rw [busy] at free'
    cases free'
  onBus := .inr ⟨call, inside, onBus⟩

theorem buffers_granted (s : Cluster n) (i : Fin n) (rest : List BusTrans) (bus : Blocking)
    (memory : Memory 32) (performed : List (Fin n × BlockWrite 32)) :
    (⟨Function.update s.masters i { s.masters i with busInFifo := rest }, bus, memory, performed⟩ :
      Cluster n).buffers =
      { memory := memory
        pending := Function.update s.buffers.pending i
          (rest.filterMap (BusTrans.store? (s.masters i).writeBuf))
        pushed := s.buffers.pushed
        committed := performed } := by
  have taken := buffers_update s i { s.masters i with busInFifo := rest }
  have pending := congrArg Buffers.pending taken
  have pushed := congrArg Buffers.pushed taken
  dsimp only at pending pushed
  have accepted : Function.update s.buffers.pushed i (s.masters i).accepted = s.buffers.pushed :=
    Function.update_eq_self i s.buffers.pushed
  rw [accepted] at pushed
  exact congrArg₂ (fun p q => (⟨memory, p, q, performed⟩ : Buffers (Fin n) 32)) pending pushed

theorem Coherence.read_first (inv : Coherence cfg start s) {i : Fin n} {address length : BitVec 32}
    {data : Buffer} {lock : Bool} {rest : List BusTrans}
    (fifo : (s.masters i).busInFifo = .read address length data lock :: rest) :
    rest = [] ∧ ∃ ld cacheHit, (s.masters i).load = some ld ∧
      Missed (cfg i) (s.masters i) ld cacheHit ∧ address = (cfg i).lineAddress ld.request.address ∧
      length = BitVec.ofNat 32 (cfg i).mBytesperline := by
  cases inv.loads i with
  | running idle stores own =>
    have write := stores (.read address length data lock) (fifo ▸ List.mem_cons_self ..)
    cases write
  | queued ld cacheHit older data' lock' waits missed fifo' stores own =>
    rw [fifo] at fifo'
    cases older with
    | nil =>
      obtain ⟨first, alone⟩ := List.cons.inj fifo'
      obtain ⟨rfl, rfl, -, -⟩ := BusTrans.read.inj first
      exact ⟨alone, ld, cacheHit, waits, missed, rfl, rfl⟩
    | cons oldest older =>
      have write := stores oldest (List.mem_cons_self ..)
      rw [← (List.cons.inj fifo').1] at write
      cases write
  | fetched ld cacheHit waits missed fifo' brought =>
    rw [fifo] at fifo'
    cases fifo'

private theorem coherence_grant_read (inv : Coherence cfg start s) {i : Fin n}
    {address length : BitVec 32} {data : Buffer} {lock : Bool} {rest : List BusTrans}
    {bus : Blocking} {performed : List (Fin n × BlockWrite 32)} (free : s.bus.inside = [])
    (busy : bus.busy = true)
    (inside : bus.inside = [⟨i, ⟨false, address, memcpy data (bytesAt s.memory address) length.toNat,
      length, lock, .ok⟩, true⟩])
    (fifo : (s.masters i).busInFifo = .read address length data lock :: rest)
    (same : performed = s.performed) :
    Coherence cfg start ⟨Function.update s.masters i { s.masters i with busInFifo := rest }, bus,
      s.memory, performed⟩ := by
  obtain ⟨rfl, ld, cacheHit, waits, missed, rfl, rfl⟩ := inv.read_first fifo
  have unchanged : (⟨Function.update s.masters i { s.masters i with busInFifo := [] }, bus,
      s.memory, performed⟩ : Cluster n).buffers = s.buffers := by
    have empty : s.buffers.pending i = [] := by
      change (s.masters i).stores = []
      rw [MmuCacheBase.stores, fifo]
      rfl
    rw [buffers_granted, same]
    change { s.buffers with pending := Function.update s.buffers.pending i [] } = s.buffers
    rw [← empty, Function.update_eq_self]
  have onBus : OnBus cfg ⟨i, ⟨false, (cfg i).lineAddress ld.request.address, memcpy data
      (bytesAt s.memory ((cfg i).lineAddress ld.request.address))
      (BitVec.ofNat 32 (cfg i).mBytesperline).toNat, BitVec.ofNat 32 (cfg i).mBytesperline, lock,
      .ok⟩, true⟩ := by
    refine ⟨i.isLt, rfl, fun write => ?_⟩
    cases write
  refine inv.of_grant free inside busy rfl onBus fifo unchanged inv.order ?_ ?_
  · intro j a _
    rfl
  · refine .fetched ld cacheHit waits ⟨missed.path, missed.ready, missed.inside⟩ rfl ?_
    intro call member _
    rw [List.mem_singleton.mp member]
    refine ⟨data, ?_⟩
    rw [(cfg i).toNat_mBytesperline]

private theorem coherence_grant_write (inv : Coherence cfg start s) {i : Fin n}
    {address length : BitVec 32} {dataPtr : ℕ} {lock : Bool} {rest : List BusTrans}
    {bus : Blocking} {memory : Memory 32} {performed : List (Fin n × BlockWrite 32)} {data : Buffer}
    (free : s.bus.inside = []) (busy : bus.busy = true)
    (inside : bus.inside = [⟨i, ⟨true, address, data, length, lock, .ok⟩, true⟩])
    (fifo : (s.masters i).busInFifo = .write address length dataPtr lock :: rest)
    (pointed : data = skip (s.masters i).writeBuf dataPtr)
    (written : memory = writeBytes s.memory address data length.toNat)
    (more : performed = s.performed ++ [(i, block address length data)]) :
    Coherence cfg start ⟨Function.update s.masters i { s.masters i with busInFifo := rest }, bus,
      memory, performed⟩ := by
  have snoopable := inv.queued i address length dataPtr lock (fifo ▸ List.mem_cons_self ..)
  have oldest : s.buffers.pending i = block address length data ::
      rest.filterMap (BusTrans.store? (s.masters i).writeBuf) := by
    change (s.masters i).stores = _
    rw [MmuCacheBase.stores, fifo, pointed]
    rfl
  have committed : (⟨Function.update s.masters i { s.masters i with busInFifo := rest }, bus, memory,
      performed⟩ : Cluster n).buffers = commit s.buffers i (block address length data)
        (rest.filterMap (BusTrans.store? (s.masters i).writeBuf)) := by
    rw [buffers_granted, commit, written, more, ← block_apply]
    rfl
  refine inv.of_grant free inside busy rfl ⟨i.isLt, rfl, fun _ => snoopable⟩ fifo committed
    (inOrder_commit inv.order oldest) ?_ ?_
  · intro j a outside
    by_cases own : j = i
    · rw [own, view_commit_self oldest]
    · exact view_commit_other own (outside rfl own)
  · have ownWrites : OwnWrites [⟨i, ⟨true, address, data, length, lock, .ok⟩, true⟩] (i : ℕ) := by
      intro call member _
      rw [List.mem_singleton.mp member]
    cases inv.loads i with
    | running idle stores own =>
      refine .running idle (fun t member => stores t ?_) ownWrites
      rw [fifo]
      exact List.mem_cons_of_mem _ member
    | queued ld cacheHit older data' lock' waits missed fifo' stores own =>
      rw [fifo] at fifo'
      cases older with
      | nil => cases (List.cons.inj fifo').1
      | cons oldest older =>
        refine .queued ld cacheHit older data' lock' waits ⟨missed.path, missed.ready, missed.inside⟩
          (List.cons.inj fifo').2 (fun t member => ?_) ownWrites
        exact stores t (List.mem_cons_of_mem _ member)
    | fetched ld cacheHit waits missed fifo' brought =>
      rw [fifo] at fifo'
      cases fifo'

theorem coherence_grant (inv : Coherence cfg start s) {i : Fin n}
    (decodes : ∀ head ∈ (s.masters i).busInFifo.head?,
      Decodes g s.bus.decoder (head.payload (s.masters i).writeBuf).address)
    (next : s.grant g pnp i = some t) : Coherence cfg start t := by
  rw [grant] at next
  cases fifo : (s.masters i).busInFifo with
  | nil =>
    rw [fifo] at next
    cases next
  | cons head rest =>
    rw [fifo] at next decodes
    obtain ⟨⟨bus, memory⟩, granted, rfl⟩ := Option.map_eq_some_iff.mp next
    obtain ⟨notBusy, rfl, busy, inside⟩ := bTransport_memory (decodes head rfl) granted
    have free := inv.idle notBusy
    rw [free, List.nil_append] at inside
    cases head with
    | read address length data lock =>
      exact coherence_grant_read inv free busy inside fifo (List.append_nil _)
    | write address length dataPtr lock =>
      exact coherence_grant_write inv free busy inside fifo rfl rfl rfl

/-- What a snooped write leaves of a master. -/
def snoopedMaster (cfg : Fin n → Config) (s : Cluster n) (writer : ℕ) (address length : BitVec 32)
    (j : Fin n) : MmuCacheBase :=
  if writer ≠ j then
    { s.masters j with
      dcache := VectorCache.snoopWords (cfg j) ((length.toNat + 3) / 4) (s.masters j).dcache address }
  else s.masters j

theorem broadcast_eq (searching : ∀ i, Searching (cfg i) (ccr i)) (s : Cluster n) (writer : ℕ)
    {address length : BitVec 32} (snoopable : Snoopable cfg address length) :
    s.broadcast cfg ccr writer ⟨address, length⟩ =
      some { s with masters := snoopedMaster cfg s writer address length } := by
  have each (j : Fin n) : (s.masters j).snoopingCallBack (cfg j) (ccr j) j writer ⟨address, length⟩ =
      some (snoopedMaster cfg s writer address length j) := by
    unfold MmuCacheBase.snoopingCallBack snoopedMaster
    by_cases other : writer ≠ j
    · have snooped := VectorCache.snoopInvalidate_eq (s.masters j).dcache (searching j).any_bit
        snoopable.2
      rw [BitVec.ofNat_toNat, BitVec.setWidth_eq] at snooped
      rw [if_pos other, if_pos other, snooped]
      rfl
    · rw [if_neg other, if_neg other]
  rw [broadcast, collect_eq each]
  rfl

private theorem coherence_complete_write (linefetch : ∀ i, (cfg i).newLinefetchEn = true)
    (inv : Coherence cfg start s) {call : Call} (inside : s.bus.inside = [call])
    (onBus : OnBus cfg call) (write : call.trans.isWrite = true) {bus : Blocking}
    (free : bus.inside = []) :
    Coherence cfg start { s with
      masters := snoopedMaster cfg s call.id call.trans.address call.trans.dataLength
      bus := bus } := by
  obtain ⟨lines, room⟩ := onBus.snoopable write
  have kept (j : Fin n) {α : Type} (f : MmuCacheBase → α)
      (blind : ∀ b c, f { b with dcache := c } = f b) :
      f (snoopedMaster cfg s call.id call.trans.address call.trans.dataLength j) =
        f (s.masters j) := by
    unfold snoopedMaster
    split_ifs
    · exact blind _ _
    · rfl
  have same : ({ s with
      masters := snoopedMaster cfg s call.id call.trans.address call.trans.dataLength
      bus := bus } : Cluster n).buffers = s.buffers := by
    unfold buffers
    dsimp only
    congr 1
    · funext j
      exact kept j MmuCacheBase.stores fun _ _ => rfl
    · funext j
      exact kept j MmuCacheBase.accepted fun _ _ => rfl
  exact
    { order := by
        rw [same]
        exact inv.order
      shows := fun j => by
        rw [same]
        have clean : VectorCache.Shows (cfg j)
            (snoopedMaster cfg s call.id call.trans.address call.trans.dataLength j).dcache
            (view s.buffers j) fun _ => False := by
          have before := inv.shows j
          unfold snoopedMaster
          split_ifs with other
          · refine before.snoop_range (linefetch j) room (.inr (lines j)) ?_
            rintro a ⟨c, member, -, -, range⟩
            rw [inside] at member
            rw [List.mem_singleton.mp member] at range
            exact range
          · refine before.weaken ?_ fun _ _ => rfl
            rintro a ⟨c, member, -, foreign, -⟩
            rw [inside] at member
            rw [List.mem_singleton.mp member] at foreign
            exact other foreign
        exact clean.weaken (fun _ stale => stale.elim) fun _ _ => rfl
      ring := fun j => by
        have ring := inv.ring j
        change (snoopedMaster cfg s _ _ _ j).Ring
        refine ⟨?_, ?_⟩
        · rw [kept j MmuCacheBase.wbPointer fun _ _ => rfl]
          exact ring.pointer
        · rw [kept j MmuCacheBase.wbPointer fun _ _ => rfl,
            kept j MmuCacheBase.busInFifo fun _ _ => rfl]
          exact ring.behind
      loads := fun j => by
        change LoadState (cfg j) (snoopedMaster cfg s _ _ _ j) bus.inside s.memory j
        rw [free]
        unfold snoopedMaster
        split_ifs
        · exact (inv.loads j).snooped (linefetch j) _ _
        · exact (inv.loads j).snooped (linefetch j) 0 0
      queued := fun j => by
        change ∀ a l p lk, BusTrans.write a l p lk ∈ (snoopedMaster cfg s _ _ _ j).busInFifo → _
        rw [kept j MmuCacheBase.busInFifo fun _ _ => rfl]
        exact inv.queued j
      idle := fun _ => free
      onBus := .inl free }

private theorem coherence_complete_read (linefetch : ∀ i, (cfg i).newLinefetchEn = true)
    (inv : Coherence cfg start s) {call : Call} (inside : s.bus.inside = [call])
    (read : call.trans.isWrite = false) {bus : Blocking} (free : bus.inside = []) {i : Fin n}
    (own : call.id = i) (reply : Reply) (isCacheable : Bool) :
    ∃ b, (s.masters i).endLoad (cfg i) (ccr i) call.trans.data reply isCacheable = some b ∧
      Coherence cfg start { s with masters := Function.update s.masters i b, bus := bus } := by
  have mine : call ∈ s.bus.inside := by
    rw [inside]
    exact List.mem_singleton_self call
  obtain ⟨ld, cacheHit, waits, missed, fifo, data, brought⟩ : ∃ ld cacheHit,
      (s.masters i).load = some ld ∧ Missed (cfg i) (s.masters i) ld cacheHit ∧
      (s.masters i).busInFifo = [] ∧ ∃ data, call.trans.data = memcpy data
        (bytesAt s.memory ((cfg i).lineAddress ld.request.address)) (cfg i).mBytesperline := by
    cases inv.loads i with
    | running idle stores ownWrites =>
      have write := ownWrites call mine own
      rw [read] at write
      cases write
    | queued ld cacheHit older data lock waits missed fifo stores ownWrites =>
      have write := ownWrites call mine own
      rw [read] at write
      cases write
    | fetched ld cacheHit waits missed fifo brought =>
      exact ⟨ld, cacheHit, waits, missed, fifo, brought call mine own⟩
  have drained : view s.buffers i = s.memory := by
    apply view_drained
    change (s.masters i).stores = []
    rw [MmuCacheBase.stores, fifo]
    rfl
  have clean (j : Fin n) : VectorCache.Shows (cfg j) (s.masters j).dcache (view s.buffers j)
      fun _ => False := by
    refine (inv.shows j).weaken ?_ fun _ _ => rfl
    rintro a ⟨c, member, write, -⟩
    rw [inside] at member
    rw [List.mem_singleton.mp member, read] at write
    cases write
  have freed : Coherence cfg start { s with bus := bus } :=
    { order := inv.order
      shows := fun j => (clean j).weaken (fun _ stale => stale.elim) fun _ _ => rfl
      ring := inv.ring
      loads := fun j => by
        change LoadState (cfg j) (s.masters j) bus.inside s.memory j
        rw [free]
        exact (inv.loads j).snooped (linefetch j) 0 0
      queued := inv.queued
      idle := fun _ => free
      onBus := .inl free }
  have fetched : ∀ a, (cfg i).SameLine ld.request.address a →
      call.trans.data ((cfg i).getOffset a).toNat = view s.buffers i a := by
    intro a line
    rw [drained, brought, memcpy_of_lt ((cfg i).getOffset_lt a), ← (cfg i).distance_lineAddress line,
      bytesAt_distance]
  obtain ⟨c, reply', refilled, shown⟩ := (clean i).read_refill (linefetch i) missed.ready
    missed.inside fetched (ccr i) ld.data reply isCacheable
  refine ⟨{ s.masters i with dcache := c, load := none }, ?_, ?_⟩
  · rw [MmuCacheBase.endLoad, waits, Option.bind_some, missed.path]
    dsimp only
    rw [refilled]
    rfl
  refine freed.of_master (buffers_same ?_ ?_) freed.order ?_ ?_ ?_ ?_ ?_
  · rfl
  · rfl
  · exact shown.weaken (fun _ stale => stale.elim) fun _ _ => rfl
  · intro j _
    rfl
  · exact ⟨(inv.ring i).pointer, (inv.ring i).behind⟩
  · refine .running rfl (fun t member => ?_) (fun c member => ?_)
    · change t ∈ (s.masters i).busInFifo at member
      rw [fifo] at member
      cases member
    · change c ∈ bus.inside at member
      rw [free] at member
      cases member
  · exact inv.queued i

theorem coherence_complete (linefetch : ∀ i, (cfg i).newLinefetchEn = true)
    (searching : ∀ i, Searching (cfg i) (ccr i)) (inv : Coherence cfg start s) {k : ℕ} {reply : Reply}
    (next : s.complete cfg ccr cacheableAt k reply = some t) : Coherence cfg start t := by
  obtain ⟨⟨bus, snoop⟩, ended, rest⟩ := Option.bind_eq_some_iff.mp next
  rcases inv.onBus with empty | ⟨call, inside, onBus⟩
  · rw [bTransportEnd, empty] at ended
    cases ended
  · obtain ⟨rfl, -, free, rfl⟩ := bTransportEnd_single inside onBus.served ended
    cases kind : call.trans.isWrite with
    | true =>
      rw [kind, if_pos rfl] at rest
      dsimp only at rest
      rw [broadcast_eq searching _ _ (onBus.snoopable kind), Option.some.injEq] at rest
      subst rest
      exact coherence_complete_write linefetch inv inside onBus kind free
    | false =>
      rw [kind, if_neg Bool.false_ne_true] at rest
      dsimp only at rest
      rw [inside, List.getElem?_cons_zero, Option.bind_some, dif_pos onBus.master, kind,
        if_neg Bool.false_ne_true, Option.map_eq_some_iff] at rest
      obtain ⟨b, woken, rfl⟩ := rest
      obtain ⟨b', woken', coherent⟩ := coherence_complete_read linefetch inv inside kind free
        (i := ⟨call.id, onBus.master⟩) rfl reply (cacheableAt call.trans.address)
      rw [woken', Option.some.injEq] at woken
      exact woken ▸ coherent

/-- A granted transfer ends: the snoops of a write return, and a read finds its load. -/
theorem Coherence.complete_ends (linefetch : ∀ i, (cfg i).newLinefetchEn = true)
    (searching : ∀ i, Searching (cfg i) (ccr i)) (inv : Coherence cfg start s)
    (granted : s.bus.inside ≠ []) (reply : Reply) :
    ∃ t, s.complete cfg ccr cacheableAt 0 reply = some t := by
  obtain ⟨call, inside, onBus⟩ := inv.onBus.resolve_left granted
  obtain ⟨⟨bus, snoop⟩, ended⟩ : ∃ r, bTransportEnd s.bus 0 = some r := by
    rw [bTransportEnd, inside]
    exact ⟨_, rfl⟩
  obtain ⟨-, -, free, rfl⟩ := bTransportEnd_single inside onBus.served ended
  rw [complete, ended, Option.bind_some]
  cases kind : call.trans.isWrite with
  | true =>
    rw [if_pos rfl]
    exact ⟨_, broadcast_eq searching _ _ (onBus.snoopable kind)⟩
  | false =>
    rw [if_neg Bool.false_ne_true]
    dsimp only
    rw [inside, List.getElem?_cons_zero, Option.bind_some, dif_pos onBus.master, kind,
      if_neg Bool.false_ne_true]
    obtain ⟨b, woken, -⟩ := coherence_complete_read linefetch inv inside kind free
      (i := ⟨call.id, onBus.master⟩) rfl reply (cacheableAt call.trans.address)
    rw [woken]
    exact ⟨_, rfl⟩

/-- The accesses of processors, all answered by the one memory. -/
def Accessible (cfg : Fin n → Config) (g : Generics) (s : Cluster n) : ClusterStep n → Prop
  | .store _ r _ _ => r.isDbg = false ∧ ∀ j, PlainAccess (cfg j) r
  | .load i r _ _ _ => r.isDbg = false ∧ PlainAccess (cfg i) r
  | .grant i => ∀ head ∈ (s.masters i).busInFifo.head?,
      Decodes g s.bus.decoder (head.payload (s.masters i).writeBuf).address
  | .complete _ _ => True

/-- A store that ends before the last word of the address space. -/
def EndsBelow : ClusterStep n → Prop
  | .store _ r _ _ => r.address.toNat + 4 * ((r.len.toNat + 3) / 4) < 2 ^ 32
  | .load .. => True
  | .grant _ => True
  | .complete _ _ => True

/-- A cluster after reset. -/
structure Initial (s : Cluster n) : Prop where
  cold : ∀ i, ColdStart (s.masters i).dcache
  empty : ∀ i, (s.masters i).busInFifo = [] ∧ (s.masters i).wbPointer = 0 ∧
    (s.masters i).load = none ∧ (s.masters i).accepted = []
  free : s.bus.inside = []
  performed : s.performed = []

theorem coherence_of_initial (initial : Initial s) : Coherence cfg s.memory s where
  order := by
    refine ⟨?_, fun i => ?_⟩
    · change s.memory = applyWrites s.memory (s.performed.map Prod.snd)
      rw [initial.performed]
      rfl
    · obtain ⟨fifo, -, -, accepted⟩ := initial.empty i
      change (s.masters i).accepted =
        (s.performed.filter (·.1 = i)).map Prod.snd ++ (s.masters i).stores
      rw [accepted, initial.performed, MmuCacheBase.stores, fifo]
      rfl
  shows i := (shows_of_coldStart (initial.cold i) _).weaken (fun _ stale => stale.elim) fun _ _ => rfl
  ring i := by
    obtain ⟨fifo, pointer, -⟩ := initial.empty i
    refine ⟨?_, ?_⟩
    · rw [pointer]
      decide
    · rw [fifo]
      trivial
  loads i := by
    obtain ⟨fifo, -, idle, -⟩ := initial.empty i
    refine .running idle (fun t member => ?_) (fun call member => ?_)
    · rw [fifo] at member
      cases member
    · rw [initial.free] at member
      cases member
  queued i address length dataPtr lock member := by
    rw [(initial.empty i).1] at member
    cases member
  idle _ := initial.free
  onBus := .inl initial.free

theorem coherence_step (linefetch : ∀ i, (cfg i).newLinefetchEn = true)
    (searching : ∀ i, Searching (cfg i) (ccr i)) {e : ClusterStep n} (inv : Coherence cfg start s)
    (access : Accessible cfg g s e) (below : EndsBelow e)
    (next : s.step cfg ccr g pnp cacheableAt e = some t) : Coherence cfg start t := by
  cases e with
  | store i r data reply =>
    rw [step, Option.ite_none_right_eq_some, Option.some.injEq] at next
    obtain ⟨ready, rfl⟩ := next
    have snoopable : Snoopable cfg r.address r.len := ⟨fun j => (access.2 j).2.2, below⟩
    exact coherence_store linefetch searching inv (access.2 i) snoopable data reply ready
  | load i r data reply ahbData =>
    rw [step, Option.ite_none_right_eq_some, Option.some.injEq] at next
    obtain ⟨ready, rfl⟩ := next
    exact coherence_load linefetch searching inv access.2 access.1 data reply ahbData ready
  | grant i => exact coherence_grant inv access next
  | complete k reply => exact coherence_complete linefetch searching inv next

/-- Nothing is under way. -/
def Quiet (s : Cluster n) : Prop := s.bus.busy = false ∧ ∀ i, (s.masters i).busInFifo = []

/-- Every valid line of every data cache holds the memory bytes of its addresses. -/
def CachesShowMemory (cfg : Fin n → Config) (s : Cluster n) : Prop :=
  ∀ (i : Fin n) (idx offset : BitVec 32) (way : ℕ), idx.toNat < (cfg i).mNumberOfVectors →
    way ≤ (cfg i).mSets → offset.toNat < (cfg i).mBytesperline →
    (VectorCache.lookupLine (cfg i) (s.masters i).dcache idx way).valid &&& 0x1 ≠ 0 →
    (VectorCache.lookupLine (cfg i) (s.masters i).dcache idx way).entry offset.toNat =
      s.memory ((cfg i).getAddress
        (VectorCache.lookupLine (cfg i) (s.masters i).dcache idx way).atag idx offset)

/-- Memory took every accepted store of every master once and in its order, and nothing else. -/
def StoresPerformed (start : Memory 32) (s : Cluster n) : Prop :=
  (∀ i, (s.masters i).accepted = (s.performed.filter (·.1 = i)).map Prod.snd) ∧
    s.memory = applyWrites start (s.performed.map Prod.snd)

/-- Multi-master coherence: in every run whose stores end before the last word of the address
space, whenever nothing is under way every data cache holds memory and every accepted store was
performed. -/
theorem multi_master_coherence (dcaches : ∀ i, (cfg i).IsDataCache)
    (searching : ∀ i, Searching (cfg i) (ccr i)) (start : Cluster n) (initial : Initial start)
    (steps : List (ClusterStep n))
    (accessible : Along (step cfg ccr g pnp cacheableAt) (Accessible cfg g) start steps)
    (below : ∀ e ∈ steps, EndsBelow e)
    (reached : run (step cfg ccr g pnp cacheableAt) start steps = some s) (quiet : s.Quiet) :
    CachesShowMemory cfg s ∧ StoresPerformed start.memory s := by
  have linefetch (i : Fin n) : (cfg i).newLinefetchEn = true := (dcaches i).linefetch
  have inv : Coherence cfg start.memory s := run_preserves
    (fun _ _ _ inv good next => coherence_step linefetch searching inv good.1 good.2 next)
    (coherence_of_initial initial) (accessible.and (along_of_forall start below)) reached
  have drained (i : Fin n) : s.buffers.pending i = [] := by
    change (s.masters i).stores = []
    rw [MmuCacheBase.stores, quiet.2 i]
    rfl
  refine ⟨?_, fun i => ?_, inv.order.memory⟩
  · intro i idx offset way hidx hway hoffset valid
    have clean : VectorCache.Shows (cfg i) (s.masters i).dcache s.memory fun _ => False := by
      have shown := inv.shows i
      rw [view_drained (drained i)] at shown
      refine shown.weaken ?_ fun _ _ => rfl
      rintro a ⟨call, member, -⟩
      rw [inv.idle quiet.1] at member
      cases member
    exact clean.line_bytes hidx hway hoffset valid
  · exact inv.order.drained (drained i)

/-- Two masters with small data caches behind a memory that takes every address. -/
def twoMasters : Cluster 2 where
  masters _ := ⟨resetCache, [], fun _ => 0, 0, none, []⟩
  bus := Blocking.init (Decoder.build [⟨0, 0, 0, 0⟩])
  memory _ := 0
  performed := []

theorem twoMasters_initial : Initial twoMasters where
  cold _ := resetCache_cold
  empty _ := ⟨rfl, rfl, rfl, rfl⟩
  free := rfl
  performed := rfl

instance (d : Decoder) (address : BitVec 32) : Decidable (Decodes g d address) := by
  unfold Decodes
  infer_instance

instance (s : Cluster n) (e : ClusterStep n) : Decidable (Accessible cfg g s e) := by
  cases e <;> unfold Accessible PlainAccess <;> infer_instance

instance (e : ClusterStep n) : Decidable (EndsBelow e) := by
  cases e <;> unfold EndsBelow <;> infer_instance

/-- A bus without the configuration area. -/
def openBus : Generics := ⟨false, 0, 0, 0, 0, false, 2⟩

/-- The steps of two masters with enabled caches. -/
def twoStep : Cluster 2 → ClusterStep 2 → Option (Cluster 2) :=
  step (fun _ => smallDataCache) (fun _ => 0xc) openBus ⟨1, fun _ => none, fun _ => none⟩ fun _ => true

/-- Master 1 loads a line, and master 0 stores a word in it. -/
def loadThenStore (line word : BitVec 32) : List (ClusterStep 2) :=
  [.load 1 ⟨line, 0xa, 4, false, false⟩ (fun _ => 0) ⟨0, false⟩ fun _ => 0, .grant 1,
    .complete 0 ⟨0, false⟩, .store 0 ⟨word, 0xa, 4, false, false⟩ (fun _ => 0x5a) ⟨0, false⟩,
    .grant 0, .complete 0 ⟨0, false⟩]

theorem multi_master_coherence_two :
    ∃ s, run twoStep twoMasters (loadThenStore 0x40000000 0x40000008) = some s ∧
      CachesShowMemory (fun _ => smallDataCache) s ∧ StoresPerformed twoMasters.memory s := by
  have evaluated : (run twoStep twoMasters (loadThenStore 0x40000000 0x40000008)).map (fun s =>
      (s.bus.busy, (s.masters 0).busInFifo.isEmpty, (s.masters 1).busInFifo.isEmpty)) =
      some (false, true, true) := by
    decide +kernel
  obtain ⟨s, reached, facts⟩ := Option.map_eq_some_iff.mp evaluated
  simp only [Prod.mk.injEq, List.isEmpty_iff] at facts
  obtain ⟨free, first, second⟩ := facts
  exact ⟨s, reached, multi_master_coherence (fun _ => smallDataCache_isDataCache)
    (fun _ => .inr (by decide)) twoMasters twoMasters_initial _ (by decide +kernel) (by decide +kernel)
    reached ⟨free, Fin.forall_fin_two.mpr ⟨first, second⟩⟩⟩

/-- The snoop of a store to the last word of the address space wraps around and clears nothing. -/
theorem last_word_stays_stale :
    Along twoStep (Accessible (fun _ => smallDataCache) openBus) twoMasters
        (loadThenStore 0xfffffff0 0xfffffffc) ∧
      ∃ s, run twoStep twoMasters (loadThenStore 0xfffffff0 0xfffffffc) = some s ∧ s.Quiet ∧
        ¬ CachesShowMemory (fun _ => smallDataCache) s := by
  refine ⟨by decide +kernel, ?_⟩
  have evaluated : (run twoStep twoMasters (loadThenStore 0xfffffff0 0xfffffffc)).map (fun s =>
      (s.bus.busy, (s.masters 0).busInFifo.isEmpty, (s.masters 1).busInFifo.isEmpty,
        (VectorCache.lookupLine smallDataCache (s.masters 1).dcache 0x3f 0).valid &&& 0x1,
        (VectorCache.lookupLine smallDataCache (s.masters 1).dcache 0x3f 0).entry 12,
        s.memory (smallDataCache.getAddress
          (VectorCache.lookupLine smallDataCache (s.masters 1).dcache 0x3f 0).atag 0x3f 12))) =
      some (false, true, true, 1, 0, 0x5a) := by
    decide +kernel
  obtain ⟨s, reached, facts⟩ := Option.map_eq_some_iff.mp evaluated
  simp only [Prod.mk.injEq, List.isEmpty_iff] at facts
  obtain ⟨free, first, second, valid, entry, byte⟩ := facts
  refine ⟨s, reached, ⟨free, Fin.forall_fin_two.mpr ⟨first, second⟩⟩, fun shows => ?_⟩
  have shown := shows 1 0x3f 12 0 (by decide) (by decide) (by decide) (by rw [valid]; decide)
  change (VectorCache.lookupLine smallDataCache (s.masters 1).dcache 0x3f 0).entry 12 = s.memory _
    at shown
  rw [entry, byte] at shown
  exact absurd shown (by decide)

end Cluster

end Socrocket.MmuCache
