/- Socrocket/MmuCache/WriteBuffer
   digest: The ring that holds the data of the writes on their way from the controller to the bus. -/

import Socrocket.MmuCache.MultiMaster

set_option autoImplicit false
set_option relaxedAutoImplicit false

namespace Socrocket.MmuCache

open Socrocket.Base.ByteMemory
open Socrocket.Base.Run

namespace BusTrans

/-- The bytes of `write_buf` that a transaction points to. -/
def PointsTo : BusTrans → ℕ → Prop
  | .read .., _ => False
  | .write _ length dataPtr _, byte => dataPtr ≤ byte ∧ byte < dataPtr + length.toNat

/-- A write of at least one byte. -/
def Stores : BusTrans → Prop
  | .read .. => False
  | .write _ length _ _ => 0 < length.toNat

theorem beside_iff {t : BusTrans} {next length : ℕ} (some_bytes : 0 < length) (stores : t.Stores) :
    t.Beside next length ↔ ∀ byte, t.PointsTo byte → ¬(next ≤ byte ∧ byte < next + length) := by
  cases t with
  | read => exact stores.elim
  | write address len dataPtr lock =>
    change 0 < len.toNat at stores
    constructor
    · intro beside byte points copied
      change next + length ≤ dataPtr ∨ dataPtr + len.toNat ≤ next at beside
      change dataPtr ≤ byte ∧ byte < dataPtr + len.toNat at points
      omega
    · intro apart
      have first := apart (max next dataPtr)
      change dataPtr ≤ _ ∧ _ < dataPtr + len.toNat → _ at first
      change next + length ≤ dataPtr ∨ dataPtr + len.toNat ≤ next
      omega

end BusTrans

/-- The writing side of the bus interface: the ring, the transaction whose `put` waits for room, the one
in the fifo and the one that `mem_access` carries. `accepted` and `delivered` are the history of the
calls and of the bus, `debugged` pairs what each debug write asked for with what the bus got. -/
structure WriteBuffer where
  writeBuf : Buffer
  wbPointer : ℕ
  putting : Option BusTrans
  busInFifo : Option BusTrans
  carried : Option BusTrans
  accepted : List (BlockWrite 32)
  delivered : List (BlockWrite 32)
  debugged : List (BlockWrite 32 × BlockWrite 32)

/-- The parameters of a call of `mem_write`. -/
structure WriteCall where
  address : BitVec 32
  data : Buffer
  length : BitVec 32
  isDbg : Bool
  isLock : Bool
  length_range : length ∈ [1, 2, 4, 8]

theorem WriteCall.length_bounds (w : WriteCall) : 0 < w.length.toNat ∧ w.length.toNat ≤ 8 := by
  have range := w.length_range
  simp only [List.mem_cons, List.not_mem_nil, or_false] at range
  obtain same | same | same | same := range <;> rw [same] <;> decide

/-- What happens around the ring: a call of the processor, the end of a `put` that waited, `mem_access`
taking a transaction, and the end of the transaction on the bus. -/
inductive BufferStep where
  | memWrite (w : WriteCall)
  | put
  | get
  | complete

namespace WriteBuffer

/-- The constructor leaves the bytes of the ring as they are. -/
def construct (writeBuf : Buffer) : WriteBuffer := ⟨writeBuf, 0, none, none, none, [], [], []⟩

/-- Copy the data to the ring, then queue the transaction, or do it at once for the debugger. -/
def memWrite (s : WriteBuffer) (w : WriteCall) : WriteBuffer :=
  let writeBuf := copyTo s.writeBuf s.wbPointer w.data w.length.toNat
  let wbPointer := (s.wbPointer + w.length.toNat) % 256
  let asked := block w.address w.length w.data
  if w.isDbg = false then
    { s with
      writeBuf := writeBuf
      wbPointer := wbPointer
      putting := some (.write w.address w.length s.wbPointer w.isLock)
      accepted := s.accepted ++ [asked] }
  else
    { s with
      writeBuf := writeBuf
      wbPointer := wbPointer
      debugged := s.debugged ++ [(asked, block w.address w.length (skip writeBuf s.wbPointer))] }

/-- Perform one step. The processor calls nothing while its `put` waits. -/
def step (s : WriteBuffer) : BufferStep → Option WriteBuffer
  | .memWrite w => if s.putting.isNone then some (s.memWrite w) else none
  | .put =>
    if s.busInFifo.isNone then
      s.putting.map fun t => { s with putting := none, busInFifo := some t }
    else none
  | .get =>
    if s.carried.isNone then
      s.busInFifo.map fun t => { s with busInFifo := none, carried := some t }
    else none
  | .complete =>
    s.carried.map fun t =>
      { s with carried := none, delivered := s.delivered ++ (t.store? s.writeBuf).toList }

/-- The transactions that have not completed on the bus, oldest first. -/
def outstanding (s : WriteBuffer) : List BusTrans :=
  s.carried.toList ++ (s.busInFifo.toList ++ s.putting.toList)

/-- The bus got the oldest stores byte by byte, and the others still point to their bytes. -/
structure Kept (s : WriteBuffer) : Prop where
  stores : s.accepted = s.delivered ++ s.outstanding.filterMap (BusTrans.store? s.writeBuf)
  debug : ∀ pair ∈ s.debugged, pair.1 = pair.2

/-- A call copies inside `write_buf`, and nothing a transaction on its way points to. -/
def Safe (s : WriteBuffer) : BufferStep → Prop
  | .memWrite w =>
    s.wbPointer + w.length.toNat ≤ 1024 ∧ ∀ t ∈ s.outstanding, ∀ byte, t.PointsTo byte →
      ¬(s.wbPointer ≤ byte ∧ byte < s.wbPointer + w.length.toNat)
  | _ => True

/-- The stores of a run keep their data until they are delivered. -/
def StoresKept (s : WriteBuffer) (steps : List BufferStep) : Prop :=
  Along step Safe s steps ∧
    ∀ before after u, steps = before ++ after → run step s before = some u → Kept u

/-- The ring has come round to no transaction that is still on its way. -/
def Clear (s : WriteBuffer) : BufferStep → Prop
  | .memWrite w => ∀ t ∈ s.outstanding, t.Beside s.wbPointer w.length.toNat
  | _ => True

/-- A step of the program, not of the debugger. -/
def Plain : BufferStep → Prop
  | .memWrite w => w.isDbg = false
  | _ => True

/-- The pointer stays in the ring, and only stores are on their way. -/
structure Sound (s : WriteBuffer) : Prop where
  pointer : s.wbPointer < 256
  stores : ∀ t ∈ s.outstanding, t.Stores

section Steps

variable {s t : WriteBuffer} {i : BufferStep} {w : WriteCall} {trans : BusTrans}

/-- A transaction goes on to its next place. -/
structure Passes (s t : WriteBuffer) : Prop where
  outstanding : t.outstanding = s.outstanding
  writeBuf : t.writeBuf = s.writeBuf
  wbPointer : t.wbPointer = s.wbPointer
  accepted : t.accepted = s.accepted
  delivered : t.delivered = s.delivered
  debugged : t.debugged = s.debugged

/-- All that a step can do. -/
theorem step_cases (next : step s i = some t) :
    (∃ w, i = .memWrite w ∧ s.putting = none ∧ t = s.memWrite w) ∨
    ((i = .put ∨ i = .get) ∧ Passes s t) ∨
    (i = .complete ∧ ∃ trans, s.outstanding = trans :: t.outstanding ∧
      t = { s with
        carried := none
        delivered := s.delivered ++ (trans.store? s.writeBuf).toList }) := by
  cases i with
  | memWrite w =>
    obtain ⟨free, same⟩ := Option.ite_none_right_eq_some.mp next
    exact .inl ⟨w, rfl, Option.isNone_iff_eq_none.mp free, (Option.some.inj same).symm⟩
  | put =>
    obtain ⟨free, same⟩ := Option.ite_none_right_eq_some.mp next
    obtain ⟨trans, waits, rfl⟩ := Option.map_eq_some_iff.mp same
    refine .inr (.inl ⟨.inl rfl, ⟨?_, rfl, rfl, rfl, rfl, rfl⟩⟩)
    rw [outstanding, outstanding, Option.isNone_iff_eq_none.mp free, waits]
    rfl
  | get =>
    obtain ⟨free, same⟩ := Option.ite_none_right_eq_some.mp next
    obtain ⟨trans, waits, rfl⟩ := Option.map_eq_some_iff.mp same
    refine .inr (.inl ⟨.inr rfl, ⟨?_, rfl, rfl, rfl, rfl, rfl⟩⟩)
    rw [outstanding, outstanding, Option.isNone_iff_eq_none.mp free, waits]
    rfl
  | complete =>
    obtain ⟨trans, carries, rfl⟩ := Option.map_eq_some_iff.mp next
    refine .inr (.inr ⟨rfl, trans, ?_, rfl⟩)
    rw [outstanding, carries]
    rfl

theorem outstanding_memWrite (free : s.putting = none) (plain : w.isDbg = false) :
    (s.memWrite w).outstanding =
      s.outstanding ++ [.write w.address w.length s.wbPointer w.isLock] := by
  rw [memWrite, if_pos plain]
  simp [outstanding, free]

theorem outstanding_memWrite_debug (dbg : ¬w.isDbg = false) :
    (s.memWrite w).outstanding = s.outstanding := by
  rw [memWrite, if_neg dbg]
  rfl

theorem wbPointer_memWrite : (s.memWrite w).wbPointer = (s.wbPointer + w.length.toNat) % 256 := by
  rw [memWrite, apply_ite WriteBuffer.wbPointer]
  exact ite_self _

theorem sound_step (sound : Sound s) (next : step s i = some t) : Sound t := by
  obtain ⟨w, rfl, free, rfl⟩ | ⟨-, passes⟩ | ⟨-, trans, split, rfl⟩ := step_cases next
  · refine ⟨by rw [wbPointer_memWrite]; exact Nat.mod_lt _ (by decide), ?_⟩
    by_cases plain : w.isDbg = false
    · rw [outstanding_memWrite free plain, List.forall_mem_append]
      refine ⟨sound.stores, fun trans member => ?_⟩
      rw [List.mem_singleton.mp member]
      exact w.length_bounds.1
    · rw [outstanding_memWrite_debug plain]
      exact sound.stores
  · exact ⟨passes.wbPointer ▸ sound.pointer, passes.outstanding ▸ sound.stores⟩
  · refine ⟨sound.pointer, fun other member => sound.stores other ?_⟩
    rw [split]
    exact List.mem_cons_of_mem _ member

theorem kept_memWrite (kept : Kept s) (free : s.putting = none)
    (clear : ∀ t ∈ s.outstanding, t.Beside s.wbPointer w.length.toNat) : Kept (s.memWrite w) := by
  by_cases plain : w.isDbg = false
  · refine ⟨?_, ?_⟩
    · rw [outstanding_memWrite free plain, memWrite, if_pos plain]
      change s.accepted ++ [block w.address w.length w.data] = s.delivered ++ _
      rw [List.filterMap_append, BusTrans.filterMap_store?_copyTo clear,
        List.filterMap_cons_some (show BusTrans.store? _ _ = some _ from rfl),
        block_skip_copyTo, List.filterMap_nil, kept.stores, List.append_assoc]
    · rw [memWrite, if_pos plain]
      exact kept.debug
  · refine ⟨?_, ?_⟩
    · rw [outstanding_memWrite_debug plain, memWrite, if_neg plain]
      change s.accepted = s.delivered ++ _
      rw [BusTrans.filterMap_store?_copyTo clear]
      exact kept.stores
    · rw [memWrite, if_neg plain]
      refine List.forall_mem_append.mpr ⟨kept.debug, fun pair member => ?_⟩
      rw [List.mem_singleton.mp member]
      exact (block_skip_copyTo s.writeBuf w.data w.address w.length s.wbPointer).symm

theorem kept_complete (kept : Kept s) (split : s.outstanding = trans :: t.outstanding)
    (same : t = { s with
      carried := none
      delivered := s.delivered ++ (trans.store? s.writeBuf).toList }) : Kept t := by
  have first : (trans :: t.outstanding).filterMap (BusTrans.store? s.writeBuf) =
      (trans.store? s.writeBuf).toList ++ t.outstanding.filterMap (BusTrans.store? s.writeBuf) := by
    cases stored : trans.store? s.writeBuf with
    | none => rw [List.filterMap_cons_none stored]; rfl
    | some write => rw [List.filterMap_cons_some stored]; rfl
  have stores := kept.stores
  rw [split, first, ← List.append_assoc] at stores
  rw [same] at stores ⊢
  exact ⟨stores, kept.debug⟩

/-- A step is safe and keeps the data of the stores exactly when the ring is clear for it. -/
theorem keeps_iff_clear (kept : Kept s) (sound : Sound s) (next : step s i = some t) :
    Safe s i ∧ Kept t ↔ Clear s i := by
  obtain ⟨w, rfl, free, rfl⟩ | ⟨which, passes⟩ | ⟨rfl, trans, split, same⟩ := step_cases next
  · have bounds := w.length_bounds
    have inside : s.wbPointer + w.length.toNat ≤ 1024 := by
      have pointer := sound.pointer
      omega
    have beside : Clear s (.memWrite w) ↔ ∀ t ∈ s.outstanding, ∀ byte, t.PointsTo byte →
        ¬(s.wbPointer ≤ byte ∧ byte < s.wbPointer + w.length.toNat) :=
      forall₂_congr fun t member => BusTrans.beside_iff bounds.1 (sound.stores t member)
    constructor
    · exact fun holds => beside.mpr holds.1.2
    · exact fun clear => ⟨⟨inside, beside.mp clear⟩, kept_memWrite kept free clear⟩
  · have kept' : Kept t := by
      refine ⟨?_, passes.debugged ▸ kept.debug⟩
      rw [passes.accepted, passes.delivered, passes.outstanding, passes.writeBuf]
      exact kept.stores
    obtain rfl | rfl := which
    · exact ⟨fun _ => trivial, fun _ => ⟨trivial, kept'⟩⟩
    · exact ⟨fun _ => trivial, fun _ => ⟨trivial, kept'⟩⟩
  · exact ⟨fun _ => trivial, fun _ => ⟨trivial, kept_complete kept split same⟩⟩

/-- The pointer and the transactions on their way, when the debugger does not write. -/
def Ring (s : WriteBuffer) : Prop :=
  s.wbPointer < 256 ∧ MmuCacheBase.Behind s.wbPointer s.outstanding

theorem ring_step (ring : Ring s) (plain : Plain i) (next : step s i = some t) : Ring t := by
  obtain ⟨w, rfl, free, rfl⟩ | ⟨-, passes⟩ | ⟨-, trans, split, rfl⟩ := step_cases next
  · refine ⟨by rw [wbPointer_memWrite]; exact Nat.mod_lt _ (by decide), ?_⟩
    rw [wbPointer_memWrite, outstanding_memWrite free plain]
    exact MmuCacheBase.behind_write ring.1 w.length_bounds.2 ring.2
  · rw [Ring, passes.wbPointer, passes.outstanding]
    exact ring
  · refine ⟨ring.1, ?_⟩
    have behind := ring.2
    rw [split] at behind
    cases trans with
    | read => exact behind
    | write => exact behind.2

theorem outstanding_length (s : WriteBuffer) : s.outstanding.length ≤ 3 := by
  have carried : s.carried.toList.length ≤ 1 := Option.length_toList_le
  have queued : s.busInFifo.toList.length ≤ 1 := Option.length_toList_le
  have waits : s.putting.toList.length ≤ 1 := Option.length_toList_le
  rw [outstanding, List.length_append, List.length_append]
  omega

theorem clear_of_plain (ring : Ring s) (plain : Plain i) : Clear s i := by
  cases i with
  | memWrite w =>
    exact MmuCacheBase.beside_of_behind w.length_bounds.2 s.outstanding_length ring.2
  | _ => trivial

end Steps

/-- In every run the stores keep their data until they are delivered if and only if no call finds the
ring come round to a transaction on its way, and without debug writes no call does. -/
theorem stores_kept_iff (writeBuf : Buffer) {steps : List BufferStep} {s : WriteBuffer}
    (reached : run step (construct writeBuf) steps = some s) :
    (StoresKept (construct writeBuf) steps ↔ Along step Clear (construct writeBuf) steps) ∧
      ((∀ i ∈ steps, Plain i) → StoresKept (construct writeBuf) steps) := by
  have kept : Kept (construct writeBuf) := ⟨rfl, fun pair member => absurd member List.not_mem_nil⟩
  have sound : Sound (construct writeBuf) :=
    ⟨Nat.zero_lt_succ _, fun t member => absurd member List.not_mem_nil⟩
  have ring : Ring (construct writeBuf) := ⟨Nat.zero_lt_succ _, trivial⟩
  have exactly : StoresKept (construct writeBuf) steps ↔ Along step Clear (construct writeBuf) steps :=
    along_throughout_iff (fun s i t kept sound next => keeps_iff_clear kept sound next)
      (fun s i t _ sound next => sound_step sound next) kept sound reached
  refine ⟨exactly, fun plain => exactly.mpr ?_⟩
  have along : Along step (fun _ i => Plain i) (construct writeBuf) steps := along_of_forall _ plain
  exact along_of_along (P := Ring) (fun s i ring plain => clear_of_plain ring plain)
    (fun s i t ring plain next => ring_step ring plain next) ring along

/-- A double word for the bus, of one repeated byte. -/
def doubleWord (byte : BitVec 8) (isDbg : Bool) : BufferStep :=
  .memWrite ⟨0x40000000, fun _ => byte, 8, isDbg, false, by decide⟩

/-- A store that the bus carries while the debugger writes as much as the ring holds. -/
def debugWhileCarried : List BufferStep :=
  [doubleWord 0xAA false, .put, .get] ++ List.replicate 32 (doubleWord 0xBB true) ++ [.complete]

/-- Without the debugger the bus gets the store. -/
theorem stores_kept_plain :
    StoresKept (construct fun _ => 0) [doubleWord 0xAA false, .put, .get, .complete] := by
  have reached : ∃ s, run step (construct fun _ => 0) [doubleWord 0xAA false, .put, .get, .complete] =
      some s := ⟨_, rfl⟩
  obtain ⟨s, reached⟩ := reached
  refine (stores_kept_iff _ reached).2 ?_
  simp [Plain, doubleWord]

/-- The bus gets the bytes of the debugger in the place of those of the store. -/
theorem store_overwritten :
    ¬∀ (writeBuf : Buffer) (steps : List BufferStep) (s : WriteBuffer),
      run step (construct writeBuf) steps = some s → StoresKept (construct writeBuf) steps := by
  intro claim
  have bytes : (run step (construct fun _ => 0) debugWhileCarried).map (fun s =>
      (s.accepted.map (·.data 0), s.delivered.map (·.data 0), s.outstanding.length)) =
      some ([0xAA], [0xBB], 0) := by decide +kernel
  obtain ⟨s, reached, final⟩ := Option.map_eq_some_iff.mp bytes
  obtain ⟨asked, got, none_left⟩ : s.accepted.map (·.data 0) = [0xAA] ∧
      s.delivered.map (·.data 0) = [0xBB] ∧ s.outstanding.length = 0 := by simpa using final
  have kept := ((claim _ _ s reached).2 debugWhileCarried [] s (List.append_nil _).symm reached).stores
  rw [List.eq_nil_of_length_eq_zero none_left, List.filterMap_nil, List.append_nil] at kept
  rw [kept, got] at asked
  exact absurd asked (by decide)

end WriteBuffer

end Socrocket.MmuCache
