/- Socrocket/Memory/AhbMem
   digest: The memory at the AHB: the range of an access, its place in the storage and the reset. -/

import Socrocket.Bus.AddressWindow
import Socrocket.Bus.Payload
import Socrocket.Memory.Storage

set_option autoImplicit false
set_option relaxedAutoImplicit false

namespace Socrocket.Memory.AHBMem

open Socrocket.Base
open Socrocket.Base.BitField
open Socrocket.Base.ByteMemory
open Socrocket.Base.Run
open Socrocket.Base.UnorderedMap
open Socrocket.Bus
open Socrocket.Bus.AHBDevice

/-- The generics of the memory. The constructor asserts that address and mask have 12 bits. -/
structure Config where
  haddr : BitVec 32
  hmask : BitVec 32
  waitStates : BitVec 32
  cacheable : Bool
  powMon : Bool
  small : (haddr ||| hmask) >>> 12 = 0

/-- The memory has the first bar only. -/
def Config.bars (c : Config) : Bars := fun i => if i = 0 then ⟨2, c.haddr, c.hmask⟩ else ⟨0, 0, 0⟩

/-- Either implementation of the storage. -/
inductive Storage where
  | array (s : ArrayStorage)
  | map (s : MapStorage)

inductive StorageType where
  | arrayStorage
  | mapStorage
deriving DecidableEq

/-- A storage of a size. An array starts with whatever is in the memory it gets. -/
def setStorage (type : StorageType) (content : ByteMemory.Memory 32) (size : BitVec 32) : Storage :=
  match type with
  | .arrayStorage => .array ⟨content, size.toNat⟩
  | .mapStorage => .map ⟨[]⟩

namespace Storage

variable (o : Arrangement (BitVec 32) (BitVec 8))

def byte : Storage → BitVec 32 → BitVec 8
  | .array s => s.data
  | .map s => s.read

/-- Only an array gives out a pointer to its bytes. -/
def allowDmiRw : Storage → Bool
  | .array _ => true
  | .map _ => false

def writeBlock (s : Storage) (addr : BitVec 32) (ptr : Buffer) (len : ℕ) : Option Storage :=
  match s with
  | .array s => (s.writeBlock addr ptr len).map .array
  | .map s => some (.map (s.writeBlock o addr ptr len))

def readBlock (s : Storage) (addr : BitVec 32) (ptr : Buffer) (len : ℕ) : Option Buffer :=
  match s with
  | .array s => s.readBlock addr ptr len
  | .map s => some (s.readBlock addr ptr len)

def erase (s : Storage) (start stop : BitVec 32) : Option Storage :=
  match s with
  | .array s => (s.erase start stop).map .array
  | .map s => (s.erase o start stop).map .map

end Storage

section Functions

variable (c : Config) (o : Arrangement (BitVec 32) (BitVec 8))

/-- The address is for the memory. -/
def Selected (address : BitVec 32) : Prop := (c.haddr ^^^ address >>> 20) &&& c.hmask = 0

instance (address : BitVec 32) : Decidable (Selected c address) :=
  inferInstanceAs (Decidable (_ = _))

/-- The offset of an address in the storage. -/
def relativeAddr (address : BitVec 32) : BitVec 32 := address - getAhbBarAddr c.bars 0

def barSize : BitVec 32 := getAhbBarSize c.bars 0

/-- What an access leaves: the storage, the transaction, the delay, the range of the storage it was
for, whether it was warned about, what it is marked with and what it adds to the power counters. -/
structure Outcome where
  storage : Storage
  trans : GenericPayload
  delay : ℕ
  access : Option (BitVec 32 × ℕ)
  warned : Bool
  dmiAllowed : Option Bool
  cacheable : Bool
  dynReads : ℕ
  dynWrites : ℕ
  returned : BitVec 32

/-- Whether an access exceeds the memory region. The end of the region is a sum of 32 bits. -/
def warns (t : GenericPayload) : Bool :=
  (getAhbBarAddr c.bars 0 + barSize c).setWidth 64 < t.address.setWidth 64 + t.dataLength.setWidth 64

def wordsTransferred (t : GenericPayload) : BitVec 32 :=
  if t.dataLength < 4 then 1 else t.dataLength >>> 2

/-- The words that a power counter counts. -/
def counted (t : GenericPayload) : ℕ := if c.powMon then (wordsTransferred t).toNat else 0

/-- An access before its bytes are moved. Its delay is one clock cycle for a word and the wait
states. -/
def accept (s : Storage) (t : GenericPayload) (delay : ℕ) : Outcome where
  storage := s
  trans := { t with response := .ok }
  delay := delay + (wordsTransferred t + c.waitStates).toNat
  access := some (relativeAddr c t.address, t.dataLength.toNat)
  warned := warns c t
  dmiAllowed := some s.allowDmiRw
  cacheable := false
  dynReads := 0
  dynWrites := 0
  returned := t.dataLength

/-- An access for another device. -/
def refuse (s : Storage) (t : GenericPayload) (delay : ℕ) : Outcome :=
  ⟨s, { t with response := .addressError }, delay, none, false, none, false, 0, 0, t.dataLength⟩

/-- Serve a transaction. One that exceeds the memory region is warned about and served. -/
def execFunc (s : Storage) (t : GenericPayload) (delay : ℕ) : Option Outcome :=
  if Selected c t.address then
    let addr := relativeAddr c t.address
    let r := accept c s t delay
    if t.command = .write then
      (s.writeBlock o addr t.data t.dataLength.toNat).map fun s =>
        { r with storage := s, dynWrites := counted c t }
    else
      (s.readBlock addr t.data t.dataLength.toNat).map fun data =>
        { r with trans := { r.trans with data := data }, cacheable := c.cacheable
                 dynReads := counted c t }
  else some (refuse s t delay)

/-- Reset: erase from the first byte up to the last one. -/
def dorst (s : Storage) : Option Storage :=
  s.erase o 0 ((getAhbSize c.bars - 1).setWidth 32)

end Functions

inductive Event where
  | transport (t : GenericPayload)
  | reset

/-- A storage beside what is known of its bytes. -/
structure Tracked where
  storage : Storage
  expected : BitVec 32 → Option (BitVec 8)

/-- The bytes of a block are there to be accessed. -/
def Storage.Reaches (s : Storage) (addr : BitVec 32) (len : ℕ) : Prop :=
  match s with
  | .array s => addr.toNat + len ≤ s.size
  | .map _ => True

instance (addr : BitVec 32) (len : ℕ) : ∀ s : Storage, Decidable (s.Reaches addr len)
  | .array s => inferInstanceAs (Decidable (addr.toNat + len ≤ s.size))
  | .map _ => inferInstanceAs (Decidable True)

section Tracking

variable (c : Config) (o : Arrangement (BitVec 32) (BitVec 8))

/-- The access lies in the region of the first bar. -/
def Inside (t : GenericPayload) : Prop :=
  t.address.toNat + t.dataLength.toNat ≤ (getAhbBarAddr c.bars 0).toNat + (barSize c).toNat

instance (t : GenericPayload) : Decidable (Inside c t) := inferInstanceAs (Decidable (_ ≤ _))

/-- A byte that a reset clears: one before the last of the region, in a map one whose entry stands
between those of the first and the last byte in iteration order. -/
def Cleared (s : Storage) (a : BitVec 32) : Prop :=
  a.toNat + 1 < (barSize c).toNat ∧
    match s with
    | .array _ => True
    | .map s => s.read a ≠ 0 →
      (a, s.read a) ∈ spanned (s.bracket o 0 (barSize c - 1)) 0 (barSize c - 1)

instance (a : BitVec 32) : ∀ s, Decidable (Cleared c o s a)
  | .array _ => inferInstanceAs (Decidable (_ ∧ True))
  | .map s => inferInstanceAs (Decidable (_ ∧ (s.read a ≠ 0 →
      (a, s.read a) ∈ spanned (s.bracket o 0 (barSize c - 1)) 0 (barSize c - 1))))

/-- The memory before its first transaction. -/
def start (type : StorageType) (content : ByteMemory.Memory 32) : Tracked :=
  let s := setStorage type content (barSize c)
  ⟨s, fun a => some (s.byte a)⟩

/-- The code beside its purpose: a write replaces its bytes, and a reset clears. -/
def step (s : Tracked) : Event → Option Tracked
  | .transport t => (execFunc c o s.storage t 0).map fun r =>
    ⟨r.storage, fun a => if t.command = .write ∧ Selected c t.address ∧
        InRange (relativeAddr c t.address) t.dataLength.toNat a then
      some (t.data (distance (relativeAddr c t.address) a)) else s.expected a⟩
  | .reset => (dorst c o s.storage).map fun storage =>
    ⟨storage, fun a => if Cleared c o s.storage a then some 0 else none⟩

/-- The storage holds what is known of its bytes. -/
def Holds (s : Tracked) : Prop := ∀ a b, s.expected a = some b → s.storage.byte a = b

/-- A transaction for another device is refused and leaves the bytes alone. One for the memory is
answered OK: it touches the region only, or it leaves it by its length and is warned about. A write
changes the bytes of its range, and a read returns what is known of them. -/
structure Answered (s : Tracked) (t : GenericPayload) (r : Outcome) : Prop where
  refused : ¬Selected c t.address → r.trans.response = .addressError ∧ r.storage = s.storage
  served : Selected c t.address → r.trans.response = .ok
  touches : Selected c t.address → Inside c t → ∃ addr, r.access = some (addr, t.dataLength.toNat) ∧
    addr.toNat + t.dataLength.toNat ≤ (barSize c).toNat ∧
    ∀ a, (barSize c).toNat ≤ a.toNat → r.storage.byte a = s.storage.byte a
  warned : Selected c t.address → ¬Inside c t → r.warned = true
  writes : t.command = .write → ∀ a,
    ¬InRange (relativeAddr c t.address) t.dataLength.toNat a → r.storage.byte a = s.storage.byte a
  reads : Selected c t.address → t.command ≠ .write → r.storage = s.storage ∧
    ∀ i < t.dataLength.toNat, ∀ b,
      s.expected (relativeAddr c t.address + BitVec.ofNat 32 i) = some b → r.trans.data i = b

def Fulfilled (s : Tracked) : Event → Prop
  | .transport t => ∃ r, execFunc c o s.storage t 0 = some r ∧ Answered c s t r
  | .reset => True

/-- The erase of a reset has a range. In a map the last byte comes behind the first one in iteration
order. -/
def Storage.Erasable (s : Storage) : Prop :=
  match s with
  | .array _ => 0 < (barSize c).toNat
  | .map s => (eraseRange (s.bracket o 0 (barSize c - 1)) 0 (barSize c - 1)).isSome

/-- A transaction for the memory stays in an array, and a reset has a range. -/
def Defined (s : Tracked) : Event → Prop
  | .transport t => Selected c t.address →
    s.storage.Reaches (relativeAddr c t.address) t.dataLength.toNat
  | .reset => s.storage.Erasable c o

end Tracking

namespace Storage

variable {o : Arrangement (BitVec 32) (BitVec 8)} {size len : ℕ} {s s' : Storage}
  {addr first last : BitVec 32}

/-- An array has the size of the region, and a map one entry a byte. -/
def Sound (size : ℕ) : Storage → Prop
  | .array s => s.size = size
  | .map s => UniqueKeys s.data

theorem writeBlock_isSome (s : Storage) (o : Arrangement (BitVec 32) (BitVec 8)) (addr : BitVec 32)
    (ptr : Buffer) (len : ℕ) : (s.writeBlock o addr ptr len).isSome ↔ s.Reaches addr len := by
  cases s with
  | array s =>
    rw [writeBlock, Option.isSome_map, ArrayStorage.writeBlock]
    exact Option.isSome_ite
  | map s => exact iff_of_true rfl trivial

theorem writeBlock_spec (sound : s.Sound size) (ptr : Buffer) (short : len ≤ 2 ^ 32)
    (written : s.writeBlock o addr ptr len = some s') :
    s'.Sound size ∧ ∀ a, s'.byte a = writeBytes s.byte addr ptr len a := by
  cases s with
  | array s =>
    obtain ⟨t, stored, rfl⟩ := Option.map_eq_some_iff.mp written
    obtain ⟨-, result⟩ := Option.ite_none_right_eq_some.mp stored
    obtain rfl := Option.some.inj result
    exact ⟨sound, fun _ => rfl⟩
  | map s =>
    obtain rfl := Option.some.inj written
    exact MapStorage.writeBlock_spec sound ptr len short

theorem readBlock_isSome (s : Storage) (addr : BitVec 32) (ptr : Buffer) (len : ℕ) :
    (s.readBlock addr ptr len).isSome ↔ s.Reaches addr len := by
  cases s with
  | array s => exact Option.isSome_ite
  | map s => exact iff_of_true rfl trivial

theorem readBlock_eq {ptr data : Buffer} (fetched : s.readBlock addr ptr len = some data) :
    data = memcpy ptr (bytesAt s.byte addr) len := by
  cases s with
  | array s => exact (Option.some.inj (Option.ite_none_right_eq_some.mp fetched).2).symm
  | map s => exact (Option.some.inj fetched).symm.trans (MapStorage.readBlock_eq s addr ptr len)

theorem sound_erase (sound : s.Sound size) (erased : s.erase o first last = some s') :
    s'.Sound size := by
  cases s with
  | array s =>
    obtain ⟨t, cleared, rfl⟩ := Option.map_eq_some_iff.mp erased
    obtain ⟨-, result⟩ := Option.ite_none_right_eq_some.mp cleared
    obtain rfl := Option.some.inj result
    exact sound
  | map s =>
    obtain ⟨t, cleared, rfl⟩ := Option.map_eq_some_iff.mp erased
    exact MapStorage.unique_erase sound cleared

/-- An erase from the first byte on clears an array up to the last one. -/
theorem byte_erase_array {s : ArrayStorage} (erased : (array s).erase o 0 last = some s')
    {a : BitVec 32} (early : a.toNat < last.toNat) : s'.byte a = 0 := by
  obtain ⟨t, cleared, rfl⟩ := Option.map_eq_some_iff.mp erased
  obtain ⟨-, result⟩ := Option.ite_none_right_eq_some.mp cleared
  obtain rfl := Option.some.inj result
  have range : InRange 0 (last - 0).toNat a := by
    change (a - 0#32).toNat < (last - 0#32).toNat
    rwa [BitVec.sub_zero, BitVec.sub_zero]
  change writeBytes s.data 0 (fun _ => 0) (last - 0).toNat a = 0
  rw [writeBytes_of_inRange range]

theorem byte_erase_map {s : MapStorage} (unique : UniqueKeys s.data)
    (erased : (map s).erase o first last = some s') {a : BitVec 32} (held : s.read a ≠ 0 →
      (a, s.read a) ∈ spanned (s.bracket o first last) first last) : s'.byte a = 0 := by
  obtain ⟨t, removed, rfl⟩ := Option.map_eq_some_iff.mp erased
  refine (MapStorage.read_erase unique removed).trans ?_
  by_cases null : s.read a = 0
  · rw [null, ite_self]
  · exact if_pos (held null)

end Storage

variable {c : Config} {o : Arrangement (BitVec 32) (BitVec 8)} {s t : Tracked} {address : BitVec 32}

theorem dorst_last (c : Config) : (getAhbSize c.bars - 1).setWidth 32 = barSize c - 1 := by
  have unused : ∀ i : Fin 4, i ≠ 0 → getAhbBarAddr c.bars i = 0 := by
    intro i other
    rw [getAhbBarAddr, getAhbBarBase, getAhbBarMask, Config.bars, if_neg other]
    rfl
  have size : getAhbSize c.bars = (getAhbBarAddr c.bars 0 + getAhbBarSize c.bars 0).setWidth 64 -
      (getAhbBarAddr c.bars 0).setWidth 64 := by
    simp only [getAhbSize, getAhbBaseAddr, List.foldl_cons, List.foldl_nil, raise,
      unused 1 (by decide), unused 2 (by decide), unused 3 (by decide), ne_eq, not_true_eq_false,
      if_false]
  rw [size, barSize]
  generalize getAhbBarAddr c.bars 0 = addr
  generalize getAhbBarSize c.bars 0 = size
  bv_omega

theorem toNat_relativeAddr (selected : Selected c address) :
    (relativeAddr c address).toNat + (getAhbBarAddr c.bars 0).toNat = address.toNat := by
  have same : c.haddr &&& c.hmask = address >>> 20 &&& c.hmask :=
    (xor_and_eq_zero_iff _ _ _).mp selected
  have low : (getAhbBarBase c.bars 0 &&& getAhbBarMask c.bars 0).toNat ≤ address.toNat / 2 ^ 20 := by
    have masked : getAhbBarBase c.bars 0 &&& getAhbBarMask c.bars 0 =
        (address >>> 20 &&& c.hmask) &&& 0xfff := by
      rw [← same]
      change (c.haddr &&& 0xfff) &&& (c.hmask &&& 0xfff) = _
      rw [BitVec.and_assoc, ← BitVec.and_assoc _ _ 0xfff, BitVec.and_comm 0xfff c.hmask,
        BitVec.and_assoc c.hmask, BitVec.and_self, BitVec.and_assoc]
    rw [masked, BitVec.toNat_and, BitVec.toNat_and, toNat_shiftRight]
    exact Nat.and_le_left.trans Nat.and_le_left
  have base : (getAhbBarAddr c.bars 0).toNat ≤ address.toNat := by
    rw [toNat_getAhbBarAddr, AHBDevice.start]
    omega
  rw [relativeAddr, BitVec.toNat_sub_of_le (BitVec.le_def.mpr base)]
  omega

theorem execFunc_cases (c : Config) (o : Arrangement (BitVec 32) (BitVec 8)) (s : Storage)
    (t : GenericPayload) (delay : ℕ) :
    (¬Selected c t.address ∧ execFunc c o s t delay = some (refuse s t delay)) ∨
    (Selected c t.address ∧ t.command = .write ∧ execFunc c o s t delay =
      (s.writeBlock o (relativeAddr c t.address) t.data t.dataLength.toNat).map fun s' =>
        { accept c s t delay with storage := s', dynWrites := counted c t }) ∨
    (Selected c t.address ∧ t.command ≠ .write ∧ execFunc c o s t delay =
      (s.readBlock (relativeAddr c t.address) t.data t.dataLength.toNat).map fun data =>
        { accept c s t delay with
          trans := { (accept c s t delay).trans with data := data }, cacheable := c.cacheable
          dynReads := counted c t }) := by
  by_cases selected : Selected c t.address
  · by_cases isWrite : t.command = .write
    · refine .inr (.inl ⟨selected, isWrite, ?_⟩)
      rw [execFunc, if_pos selected]
      exact if_pos isWrite
    · refine .inr (.inr ⟨selected, isWrite, ?_⟩)
      rw [execFunc, if_pos selected]
      exact if_neg isWrite
  · exact .inl ⟨selected, if_neg selected⟩

/-- Every transaction that leaves the region is warned about. -/
theorem warns_of_not_inside {t : GenericPayload} (outside : ¬Inside c t) : warns c t = true := by
  rw [Inside] at outside
  have wrap := Nat.mod_le ((getAhbBarAddr c.bars 0).toNat + (barSize c).toNat) (2 ^ 32)
  have address := t.address.isLt
  have length := t.dataLength.isLt
  rw [warns, decide_eq_true_iff, BitVec.lt_def, BitVec.toNat_add, BitVec.toNat_setWidth,
    BitVec.toNat_setWidth, BitVec.toNat_setWidth, BitVec.toNat_add]
  omega

theorem sound_start (c : Config) (type : StorageType) (content : ByteMemory.Memory 32) :
    (start c type content).storage.Sound (barSize c).toNat := by
  cases type with
  | arrayStorage => rfl
  | mapStorage => exact List.nodup_nil

theorem sound_step (sound : s.storage.Sound (barSize c).toNat) (e : Event)
    (next : step c o s e = some t) : t.storage.Sound (barSize c).toNat := by
  cases e with
  | transport t =>
    obtain ⟨r, served, rfl⟩ := Option.map_eq_some_iff.mp next
    rcases execFunc_cases c o s.storage t 0 with ⟨-, eq⟩ | ⟨-, -, eq⟩ | ⟨-, -, eq⟩
    · obtain rfl := Option.some.inj (eq.symm.trans served)
      exact sound
    · obtain ⟨s', written, rfl⟩ := Option.map_eq_some_iff.mp (eq.symm.trans served)
      exact (Storage.writeBlock_spec sound t.data (Nat.le_of_lt t.dataLength.isLt) written).1
    · obtain ⟨data, -, rfl⟩ := Option.map_eq_some_iff.mp (eq.symm.trans served)
      exact sound
  | reset =>
    obtain ⟨s', erased, rfl⟩ := Option.map_eq_some_iff.mp next
    exact Storage.sound_erase sound erased

theorem execFunc_isSome (c : Config) (o : Arrangement (BitVec 32) (BitVec 8)) (s : Storage)
    (t : GenericPayload) : (execFunc c o s t 0).isSome ↔
      (Selected c t.address → s.Reaches (relativeAddr c t.address) t.dataLength.toNat) := by
  rcases execFunc_cases c o s t 0 with ⟨other, eq⟩ | ⟨selected, -, eq⟩ | ⟨selected, -, eq⟩
  · rw [eq]
    exact iff_of_true rfl fun selected => absurd selected other
  · rw [eq, Option.isSome_map, Storage.writeBlock_isSome]
    exact (imp_iff_right selected).symm
  · rw [eq, Option.isSome_map, Storage.readBlock_isSome]
    exact (imp_iff_right selected).symm

theorem not_inRange_of_inside {t : GenericPayload} (selected : Selected c t.address)
    (inside : Inside c t) : (relativeAddr c t.address).toNat + t.dataLength.toNat ≤ (barSize c).toNat ∧
      ∀ a, (barSize c).toNat ≤ a.toNat → ¬InRange (relativeAddr c t.address) t.dataLength.toNat a := by
  have offset := toNat_relativeAddr selected
  have size := (barSize c).isLt
  rw [Inside] at inside
  have fits : (relativeAddr c t.address).toNat + t.dataLength.toNat ≤ (barSize c).toNat := by omega
  refine ⟨fits, fun a behind range => ?_⟩
  have between := (inRange_iff_of_no_wrap (by omega)).mp range
  omega

theorem answered_of_execFunc {t : GenericPayload} {r : Outcome}
    (sound : s.storage.Sound (barSize c).toNat) (holds : Holds s)
    (served : execFunc c o s.storage t 0 = some r) : Answered c s t r := by
  have short : t.dataLength.toNat ≤ 2 ^ 32 := Nat.le_of_lt t.dataLength.isLt
  rcases execFunc_cases c o s.storage t 0 with
    ⟨other, eq⟩ | ⟨selected, isWrite, eq⟩ | ⟨selected, isRead, eq⟩
  · obtain rfl := Option.some.inj (eq.symm.trans served)
    refine ⟨fun _ => ⟨rfl, rfl⟩, ?_, ?_, ?_, fun _ _ _ => rfl, ?_⟩ <;>
      exact fun selected => absurd selected other
  · obtain ⟨s', written, rfl⟩ := Option.map_eq_some_iff.mp (eq.symm.trans served)
    have frame : ∀ a, ¬InRange (relativeAddr c t.address) t.dataLength.toNat a →
        s'.byte a = s.storage.byte a := by
      intro a outside
      rw [(Storage.writeBlock_spec sound t.data short written).2, writeBytes_of_not_inRange outside]
    refine ⟨fun other => absurd selected other, fun _ => rfl, fun _ inside => ?_,
      fun _ outside => warns_of_not_inside outside, fun _ => frame,
      fun _ isRead => absurd isWrite isRead⟩
    obtain ⟨fits, apart⟩ := not_inRange_of_inside selected inside
    exact ⟨_, rfl, fits, fun a behind => frame a (apart a behind)⟩
  · obtain ⟨data, fetched, rfl⟩ := Option.map_eq_some_iff.mp (eq.symm.trans served)
    refine ⟨fun other => absurd selected other, fun _ => rfl, fun _ inside => ?_,
      fun _ outside => warns_of_not_inside outside, fun _ _ _ => rfl,
      fun _ _ => ⟨rfl, fun i early b known => ?_⟩⟩
    · exact ⟨_, rfl, (not_inRange_of_inside selected inside).1, fun _ _ => rfl⟩
    · change data i = b
      rw [Storage.readBlock_eq fetched, memcpy_of_lt early]
      exact holds _ b known

/-- The storage holds what is known after an access. -/
theorem holds_transport (sound : s.storage.Sound (barSize c).toNat) (holds : Holds s)
    {t : GenericPayload} {s' : Tracked} (next : step c o s (.transport t) = some s') : Holds s' := by
  have short : t.dataLength.toNat ≤ 2 ^ 32 := Nat.le_of_lt t.dataLength.isLt
  obtain ⟨r, served, rfl⟩ := Option.map_eq_some_iff.mp next
  have answered := answered_of_execFunc sound holds served
  intro a b known
  change (if _ then _ else _) = some b at known
  split at known
  · rename_i written
    obtain ⟨isWrite, selected, range⟩ := written
    rcases execFunc_cases c o s.storage t 0 with ⟨other, -⟩ | ⟨-, -, eq⟩ | ⟨-, isRead, -⟩
    · exact absurd selected other
    · obtain ⟨s', stored, rfl⟩ := Option.map_eq_some_iff.mp (eq.symm.trans served)
      change s'.byte a = b
      rw [(Storage.writeBlock_spec sound t.data short stored).2, writeBytes_of_inRange range]
      exact Option.some.inj known
    · exact absurd isWrite isRead
  · rename_i kept
    have same : r.storage.byte a = s.storage.byte a := by
      by_cases selected : Selected c t.address
      · by_cases isWrite : t.command = .write
        · exact answered.writes isWrite a fun range => kept ⟨isWrite, selected, range⟩
        · rw [(answered.reads selected isWrite).1]
      · rw [(answered.refused selected).2]
    exact same.trans (holds a b known)

theorem toNat_last (some_byte : 0 < (barSize c).toNat) :
    (barSize c - 1).toNat = (barSize c).toNat - 1 :=
  BitVec.toNat_sub_of_le (BitVec.le_def.mpr some_byte)

theorem dorst_isSome (sound : s.storage.Sound (barSize c).toNat) :
    (dorst c o s.storage).isSome ↔ s.storage.Erasable c o := by
  rw [dorst, dorst_last]
  cases storage : s.storage with
  | array array =>
    rw [storage] at sound
    have size : array.size = (barSize c).toNat := sound
    rw [Storage.erase, Option.isSome_map, ArrayStorage.erase]
    refine Option.isSome_ite.trans ?_
    change (0 ≤ _ ∧ _ ≤ array.size) ↔ 0 < (barSize c).toNat
    rw [size]
    constructor
    · rintro ⟨-, last⟩
      by_contra empty
      have zero : barSize c = 0 := BitVec.eq_of_toNat_eq (Nat.eq_zero_of_not_pos empty)
      rw [zero] at last
      exact absurd last (by decide)
    · intro some_byte
      refine ⟨Nat.zero_le _, ?_⟩
      rw [toNat_last some_byte]
      omega
  | map map =>
    rw [Storage.erase, Option.isSome_map, MapStorage.erase, Option.isSome_map]
    exact Iff.rfl

theorem holds_reset (sound : s.storage.Sound (barSize c).toNat) {s' : Tracked}
    (next : step c o s .reset = some s') : Holds s' := by
  obtain ⟨storage, erased, rfl⟩ := Option.map_eq_some_iff.mp next
  intro a b known
  obtain ⟨cleared, zero⟩ := Option.ite_none_right_eq_some.mp known
  obtain rfl := Option.some.inj zero
  rw [dorst, dorst_last] at erased
  change storage.byte a = 0
  have some_byte : 0 < (barSize c).toNat := Nat.lt_of_le_of_lt (Nat.zero_le _) cleared.1
  cases before : s.storage with
  | array array =>
    rw [before] at erased
    refine Storage.byte_erase_array erased ?_
    rw [toNat_last some_byte]
    exact Nat.lt_sub_of_add_lt cleared.1
  | map map =>
    rw [before] at erased cleared sound
    exact Storage.byte_erase_map sound erased cleared.2

/-- From a new storage, a run exists exactly when no transaction leaves an array and every reset has a
range. In every run, every transaction is answered as it has to be and the storage holds throughout
what is known of its bytes: what was written last, and zero where a reset cleared. -/
theorem memory_exact (c : Config) (o : Arrangement (BitVec 32) (BitVec 8)) (type : StorageType)
    (content : ByteMemory.Memory 32) (events : List Event) :
    (∃ t, run (step c o) (start c type content) events = some t ∧
      Along (step c o) (Fulfilled c o) (start c type content) events ∧
      ∀ before after u, events = before ++ after →
        run (step c o) (start c type content) before = some u → Holds u) ↔
      Along (step c o) (Defined c o) (start c type content) events := by
  refine exists_throughout_iff (P := Holds) (Q := fun s => s.storage.Sound (barSize c).toNat)
    (fun s e holds sound => ?_) (fun s e t _ sound next => sound_step sound e next)
    (fun a b known => Option.some.inj known) (sound_start c type content)
  cases e with
  | transport t =>
    have defined : (execFunc c o s.storage t 0).isSome ↔ Defined c o s (.transport t) :=
      execFunc_isSome c o s.storage t
    rw [← defined, Option.isSome_iff_exists]
    constructor
    · rintro ⟨-, -, ⟨r, served, -⟩, -⟩
      exact ⟨r, served⟩
    · rintro ⟨r, served⟩
      obtain ⟨s', next⟩ : ∃ s', step c o s (.transport t) = some s' :=
        ⟨_, Option.map_eq_some_iff.mpr ⟨r, served, rfl⟩⟩
      exact ⟨s', next, ⟨r, served, answered_of_execFunc sound holds served⟩,
        holds_transport sound holds next⟩
  | reset =>
    have defined : (dorst c o s.storage).isSome ↔ Defined c o s .reset := dorst_isSome sound
    rw [← defined, Option.isSome_iff_exists]
    constructor
    · rintro ⟨s', next, -⟩
      obtain ⟨storage, erased, -⟩ := Option.map_eq_some_iff.mp next
      exact ⟨storage, erased⟩
    · rintro ⟨storage, erased⟩
      obtain ⟨s', next⟩ : ∃ s', step c o s .reset = some s' :=
        ⟨_, Option.map_eq_some_iff.mpr ⟨storage, erased, rfl⟩⟩
      exact ⟨s', next, trivial, holds_reset sound next⟩

/-- A memory of one megabyte. -/
def smallMemory : Config := ⟨0x400, 0xfff, 0, false, false, rfl⟩

/-- A write of two bytes to the last one of the small memory. -/
def writeAcross : GenericPayload :=
  ⟨.write, 0x400fffff, fun _ => 1, 2, none, .incomplete⟩

/-- A write that leaves the memory is answered OK. -/
theorem memory_serves_across :
    ¬ ∀ (c : Config) (o : Arrangement (BitVec 32) (BitVec 8)) (type : StorageType)
      (content : ByteMemory.Memory 32) (t : GenericPayload) (r : Outcome), Selected c t.address →
      ¬Inside c t → execFunc c o (start c type content).storage t 0 = some r →
      r.trans.response ≠ .ok := by
  intro claim
  exact claim smallMemory appendOrder .mapStorage (fun _ => 0) writeAcross _ (by decide) (by decide)
    rfl rfl

end Socrocket.Memory.AHBMem
