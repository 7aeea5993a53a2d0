/- Socrocket/Memory/Storage
   digest: The sparse and the flat storage of a memory agree as long as ranges are erased in order. -/

import Socrocket.Base.ByteMemory
import Socrocket.Base.Run
import Socrocket.Base.UnorderedMap

set_option autoImplicit false
set_option relaxedAutoImplicit false

namespace Socrocket.Memory

open Socrocket.Base
open Socrocket.Base.ByteMemory
open Socrocket.Base.Run
open Socrocket.Base.UnorderedMap

/-- The storage that keeps the bytes written so far in a hash map. -/
structure MapStorage where
  data : Entries (BitVec 32) (BitVec 8)

/-- The storage that keeps all bytes in an array. -/
structure ArrayStorage where
  data : ByteMemory.Memory 32
  size : ℕ

namespace MapStorage

variable (o : Arrangement (BitVec 32) (BitVec 8))

def write (s : MapStorage) (addr : BitVec 32) (byte : BitVec 8) : MapStorage :=
  ⟨assign o s.data addr byte⟩

def read (s : MapStorage) (addr : BitVec 32) : BitVec 8 := (find s.data addr).getD 0

def writeBlock (s : MapStorage) (addr : BitVec 32) (ptr : Buffer) (len : ℕ) : MapStorage :=
  (List.range len).foldl (fun s i => s.write o (addr + BitVec.ofNat 32 i) (ptr i)) s

def readBlock (s : MapStorage) (addr : BitVec 32) (ptr : Buffer) (len : ℕ) : Buffer :=
  (List.range len).foldl (fun ptr i => Function.update ptr i (s.read (addr + BitVec.ofNat 32 i))) ptr

/-- Find or insert the start and the end of a section. -/
def bracket (s : MapStorage) (start stop : BitVec 32) : Entries (BitVec 32) (BitVec 8) :=
  insert o (insert o s.data start 0) stop 0

def erase (s : MapStorage) (start stop : BitVec 32) : Option MapStorage :=
  (eraseRange (s.bracket o start stop) start stop).map MapStorage.mk

end MapStorage

namespace ArrayStorage

/-! An access outside the array is undefined. -/

def write (s : ArrayStorage) (addr : BitVec 32) (byte : BitVec 8) : Option ArrayStorage :=
  if addr.toNat < s.size then some { s with data := Function.update s.data addr byte } else none

def read (s : ArrayStorage) (addr : BitVec 32) : Option (BitVec 8) :=
  if addr.toNat < s.size then some (s.data addr) else none

def writeBlock (s : ArrayStorage) (addr : BitVec 32) (ptr : Buffer) (len : ℕ) :
    Option ArrayStorage :=
  if addr.toNat + len ≤ s.size then some { s with data := writeBytes s.data addr ptr len } else none

def readBlock (s : ArrayStorage) (addr : BitVec 32) (ptr : Buffer) (len : ℕ) : Option Buffer :=
  if addr.toNat + len ≤ s.size then some (memcpy ptr (bytesAt s.data addr) len) else none

def erase (s : ArrayStorage) (start stop : BitVec 32) : Option ArrayStorage :=
  if start ≤ stop ∧ stop.toNat ≤ s.size then
    some { s with data := writeBytes s.data start (fun _ => 0) (stop - start).toNat }
  else none

end ArrayStorage

/-- What changes a storage. -/
inductive StorageOp where
  | write (addr : BitVec 32) (byte : BitVec 8)
  | writeBlock (addr : BitVec 32) (ptr : Buffer) (len : ℕ)
  | erase (start stop : BitVec 32)

/-- An operation inside a storage. -/
def StorageOp.Inside (size : ℕ) : StorageOp → Prop
  | .write addr _ => addr.toNat < size
  | .writeBlock addr _ len => addr.toNat + len ≤ size
  | .erase start stop => start ≤ stop ∧ stop.toNat ≤ size

/-- A storage of each kind. -/
structure Storages where
  map : MapStorage
  array : ArrayStorage

/-- Two storages filled with zeros. -/
def Storages.init (size : ℕ) : Storages := ⟨⟨[]⟩, ⟨fun _ => 0, size⟩⟩

variable (o : Arrangement (BitVec 32) (BitVec 8))

/-- Perform an operation on both storages. -/
def storageStep (s : Storages) : StorageOp → Option Storages
  | .write addr byte => (s.array.write addr byte).map fun array => ⟨s.map.write o addr byte, array⟩
  | .writeBlock addr ptr len =>
    (s.array.writeBlock addr ptr len).map fun array => ⟨s.map.writeBlock o addr ptr len, array⟩
  | .erase start stop =>
    (s.map.erase o start stop).bind fun map =>
      (s.array.erase start stop).map fun array => ⟨map, array⟩

/-- The section that an erase removes ends, and of the bytes that are not zero it holds those in
the range and no others. -/
def ErasesRange (s : MapStorage) (start stop : BitVec 32) : Prop :=
  (eraseRange (s.bracket o start stop) start stop).isSome ∧
    ∀ e ∈ s.data, e.2 ≠ 0 →
      (e ∈ spanned (s.bracket o start stop) start stop ↔ start ≤ e.1 ∧ e.1 < stop)

/-- An erase meets its range in iteration order. -/
def ErasesInOrder (s : Storages) : StorageOp → Prop
  | .erase start stop => ErasesRange o s.map start stop
  | _ => True

/-- The operation is inside the storages, and an erase meets its range in iteration order. -/
def Orderly (s : Storages) (op : StorageOp) : Prop :=
  op.Inside s.array.size ∧ ErasesInOrder o s op

/-- Both storages read the same bytes. -/
def Agree (s : Storages) : Prop :=
  (∀ addr, addr.toNat < s.array.size → s.array.read addr = some (s.map.read addr)) ∧
    ∀ addr ptr len, addr.toNat + len ≤ s.array.size →
      s.array.readBlock addr ptr len = some (s.map.readBlock addr ptr len)

variable {o}

namespace MapStorage

variable {s s' : MapStorage} {addr a start stop : BitVec 32} {byte : BitVec 8}

theorem read_eq_of_mem (unique : UniqueKeys s.data) (member : (a, byte) ∈ s.data) :
    s.read a = byte := by
  rw [read, (find_eq_some unique).mpr member, Option.getD_some]

theorem read_eq_zero (absent : a ∉ keys s.data) : s.read a = 0 := by
  rw [read, find_eq_none.mpr absent, Option.getD_none]

theorem read_mem (unique : UniqueKeys s.data) (nonzero : s.read a ≠ 0) :
    (a, s.read a) ∈ s.data := by
  cases found : find s.data a with
  | none => exact absurd (read_eq_zero (find_eq_none.mp found)) nonzero
  | some byte =>
    rw [read, found, Option.getD_some]
    exact (find_eq_some unique).mp found

theorem read_write (unique : UniqueKeys s.data) :
    (s.write o addr byte).read a = if a = addr then byte else s.read a := by
  have after : UniqueKeys (s.write o addr byte).data := unique_assign unique
  split
  · rename_i own
    subst own
    exact read_eq_of_mem after (mem_assign.mpr (.inl rfl))
  · rename_i other
    cases found : find s.data a with
    | none =>
      have absent := find_eq_none.mp found
      rw [read_eq_zero absent, read_eq_zero]
      intro known
      obtain ⟨b, member⟩ := mem_keys.mp known
      rcases mem_assign.mp member with new | ⟨old, -⟩
      · exact other (Prod.mk.inj new).1
      · exact absent (mem_keys.mpr ⟨b, old⟩)
    | some b =>
      have member := (find_eq_some unique).mp found
      rw [read_eq_of_mem unique member,
        read_eq_of_mem after (mem_assign.mpr (.inr ⟨member, other⟩))]

theorem writeBlock_spec (unique : UniqueKeys s.data) (ptr : Buffer) (len : ℕ)
    (short : len ≤ 2 ^ 32) :
    UniqueKeys (s.writeBlock o addr ptr len).data ∧
      ∀ a, (s.writeBlock o addr ptr len).read a = writeBytes s.read addr ptr len a := by
  induction len with
  | zero => exact ⟨unique, fun a => (writeBytes_of_not_inRange (Nat.not_lt_zero _)).symm⟩
  | succ len ih =>
    obtain ⟨unique', reads⟩ := ih (by omega)
    have last : s.writeBlock o addr ptr (len + 1) =
        (s.writeBlock o addr ptr len).write o (addr + BitVec.ofNat 32 len) (ptr len) := by
      rw [writeBlock, List.range_succ, List.foldl_append]
      rfl
    rw [last]
    refine ⟨unique_assign unique', fun a => ?_⟩
    rw [read_write unique', reads]
    have dist : distance addr (addr + BitVec.ofNat 32 len) = len := distance_add addr (by omega)
    split
    · rename_i own
      subst own
      have range : InRange addr (len + 1) (addr + BitVec.ofNat 32 len) := by
        rw [InRange, dist]
        omega
      rw [writeBytes_of_inRange range, dist]
    · rename_i other
      by_cases range : InRange addr len a
      · rw [writeBytes_of_inRange range, writeBytes_of_inRange (Nat.lt_succ_of_lt range)]
      · have outside : ¬ InRange addr (len + 1) a := by
          intro wider
          have exact' : distance addr a = len := by
            rw [InRange] at range wider
            omega
          exact other (by rw [← exact', add_distance])
        rw [writeBytes_of_not_inRange range, writeBytes_of_not_inRange outside]

theorem readBlock_eq (s : MapStorage) (addr : BitVec 32) (ptr : Buffer) (len : ℕ) :
    s.readBlock addr ptr len = memcpy ptr (bytesAt s.read addr) len := by
  induction len with
  | zero => rfl
  | succ len ih =>
    have last : s.readBlock addr ptr (len + 1) = Function.update (s.readBlock addr ptr len) len
        (s.read (addr + BitVec.ofNat 32 len)) := by
      rw [readBlock, List.range_succ, List.foldl_append]
      rfl
    rw [last, ih]
    funext i
    by_cases own : i = len
    · subst own
      rw [Function.update_self, memcpy_of_lt (Nat.lt_succ_self i)]
      rfl
    · rw [Function.update_of_ne own]
      unfold memcpy
      split_ifs <;> first | rfl | omega

theorem bracket_spec (unique : UniqueKeys s.data) (start stop : BitVec 32) :
    UniqueKeys (s.bracket o start stop) ∧
      (∀ e ∈ s.data, e ∈ s.bracket o start stop) ∧
      ∀ e ∈ s.bracket o start stop, e ∈ s.data ∨ e.2 = 0 ∧ e.1 ∉ keys s.data := by
  refine ⟨unique_insert (unique_insert unique), fun e member => ?_, fun e member => ?_⟩
  · exact mem_insert.mpr (.inl (mem_insert.mpr (.inl member)))
  · rcases mem_insert.mp member with member | ⟨fresh, rfl⟩
    · rcases mem_insert.mp member with member | ⟨fresh, rfl⟩
      · exact .inl member
      · exact .inr ⟨rfl, fresh⟩
    · refine .inr ⟨rfl, fun known => fresh ?_⟩
      obtain ⟨b, old⟩ := mem_keys.mp known
      exact mem_keys.mpr ⟨b, mem_insert.mpr (.inl old)⟩

/-- After an erase the bytes of the section it removed are zero, and no others change. -/
theorem read_erase (unique : UniqueKeys s.data) (erased : s.erase o start stop = some s') :
    s'.read a = if (a, s.read a) ∈ spanned (s.bracket o start stop) start stop then 0
      else s.read a := by
  obtain ⟨l, removed, rfl⟩ := Option.map_eq_some_iff.mp erased
  obtain ⟨bracketed, old, new⟩ := bracket_spec (o := o) unique start stop
  obtain ⟨unique', member_iff⟩ := eraseRange_spec bracketed removed
  by_cases zero : s.read a = 0
  · rw [zero, ite_self]
    by_contra nonzero
    have member := ((member_iff _).mp (read_mem (s := ⟨l⟩) unique' nonzero)).1
    rcases new _ member with before | ⟨null, -⟩
    · have same := read_eq_of_mem unique before
      exact nonzero (same.symm.trans zero)
    · exact nonzero null
  · have before := old _ (read_mem unique zero)
    split
    · rename_i gone
      apply read_eq_zero
      intro known
      obtain ⟨b, kept⟩ := mem_keys.mp known
      obtain ⟨member, outside⟩ := (member_iff _).mp kept
      exact outside (bracketed.single before member ▸ gone)
    · rename_i here
      exact read_eq_of_mem unique' ((member_iff _).mpr ⟨before, here⟩)

theorem unique_erase (unique : UniqueKeys s.data) (erased : s.erase o start stop = some s') :
    UniqueKeys s'.data := by
  obtain ⟨l, removed, rfl⟩ := Option.map_eq_some_iff.mp erased
  exact (eraseRange_spec (bracket_spec unique start stop).1 removed).1

private theorem inRange_iff_between (order : start ≤ stop) :
    InRange start (stop - start).toNat a ↔ start ≤ a ∧ a < stop := by
  have length : (stop - start).toNat = stop.toNat - start.toNat := by
    rw [← distance, distance_of_le (BitVec.le_def.mp order)]
  have bound := stop.isLt
  rw [inRange_iff_of_no_wrap (by omega), length, BitVec.le_def, BitVec.lt_def]
  rw [BitVec.le_def] at order
  omega

/-- An erase zeroes the range and keeps the rest exactly when it meets its range in order. -/
theorem erase_zeroes_iff (unique : UniqueKeys s.data) (order : start ≤ stop) :
    (∃ t, s.erase o start stop = some t ∧
      ∀ a, t.read a = writeBytes s.read start (fun _ => 0) (stop - start).toNat a) ↔
      ErasesRange o s start stop := by
  have zeroed (a : BitVec 32) : writeBytes s.read start (fun _ => 0) (stop - start).toNat a =
      if start ≤ a ∧ a < stop then 0 else s.read a := by
    simp only [writeBytes, inRange_iff_between order]
  constructor
  · rintro ⟨t, erased, reads⟩
    obtain ⟨l, removed, -⟩ := Option.map_eq_some_iff.mp erased
    refine ⟨Option.isSome_iff_exists.mpr ⟨l, removed⟩, fun e member nonzero => ?_⟩
    have value : s.read e.1 = e.2 := read_eq_of_mem unique member
    have equal := (read_erase unique erased).symm.trans ((reads e.1).trans (zeroed e.1))
    rw [value] at equal
    by_cases gone : e ∈ spanned (s.bracket o start stop) start stop
    · rw [if_pos gone] at equal
      refine iff_of_true gone ?_
      by_contra outside
      rw [if_neg outside] at equal
      exact nonzero equal.symm
    · rw [if_neg gone] at equal
      refine iff_of_false gone fun inside => ?_
      rw [if_pos inside] at equal
      exact nonzero equal
  · rintro ⟨ends, meets⟩
    obtain ⟨l, removed⟩ := Option.isSome_iff_exists.mp ends
    have erased : s.erase o start stop = some ⟨l⟩ := Option.map_eq_some_iff.mpr ⟨l, removed, rfl⟩
    refine ⟨⟨l⟩, erased, fun a => ?_⟩
    rw [read_erase unique erased, zeroed]
    by_cases zero : s.read a = 0
    · rw [zero, ite_self, ite_self]
    · simp only [meets _ (read_mem unique zero) zero]

theorem erase_clears_iff (unique : UniqueKeys s.data) :
    (∃ t, s.erase o start stop = some t ∧ ∀ a, start ≤ a → a < stop → t.read a = 0) ↔
      (eraseRange (s.bracket o start stop) start stop).isSome ∧ ∀ e ∈ s.data, e.2 ≠ 0 →
        start ≤ e.1 → e.1 < stop → e ∈ spanned (s.bracket o start stop) start stop := by
  constructor
  · rintro ⟨t, erased, zero⟩
    obtain ⟨l, removed, -⟩ := Option.map_eq_some_iff.mp erased
    refine ⟨Option.isSome_iff_exists.mpr ⟨l, removed⟩, fun e member nonzero low high => ?_⟩
    have value : s.read e.1 = e.2 := read_eq_of_mem unique member
    have gone := (read_erase unique erased).symm.trans (zero e.1 low high)
    rw [value] at gone
    by_contra kept
    rw [if_neg kept] at gone
    exact nonzero gone
  · rintro ⟨ends, meets⟩
    obtain ⟨l, removed⟩ := Option.isSome_iff_exists.mp ends
    have erased : s.erase o start stop = some ⟨l⟩ := Option.map_eq_some_iff.mpr ⟨l, removed, rfl⟩
    refine ⟨⟨l⟩, erased, fun a low high => ?_⟩
    rw [read_erase unique erased]
    by_cases zero : s.read a = 0
    · rw [zero, ite_self]
    · exact if_pos (meets _ (read_mem unique zero) zero low high)

end MapStorage

theorem ArrayStorage.erase_clears_iff {s : ArrayStorage} {start stop : BitVec 32}
    (order : start ≤ stop) :
    (∃ t, s.erase start stop = some t ∧ ∀ a, start ≤ a → a < stop → t.data a = 0) ↔
      stop.toNat ≤ s.size := by
  constructor
  · rintro ⟨t, erased, -⟩
    exact (Option.ite_none_right_eq_some.mp erased).1.2
  · intro inside
    refine ⟨_, if_pos ⟨order, inside⟩, fun a low high => ?_⟩
    show writeBytes s.data start (fun _ => 0) (stop - start).toNat a = 0
    rw [writeBytes_of_inRange ((MapStorage.inRange_iff_between order).mpr ⟨low, high⟩)]

/-- The map stands for the bytes of the array. -/
structure Mirrors (s : Storages) : Prop where
  unique : UniqueKeys s.map.data
  room : s.array.size < 2 ^ 32
  reads : ∀ a, s.map.read a = s.array.data a

private theorem Mirrors.reads_eq {s : Storages} (mirrors : Mirrors s) :
    s.map.read = s.array.data := funext mirrors.reads

theorem Mirrors.agree {s : Storages} (mirrors : Mirrors s) : Agree s := by
  constructor
  · intro addr inside
    rw [ArrayStorage.read, if_pos inside, mirrors.reads]
  · intro addr ptr len inside
    rw [ArrayStorage.readBlock, if_pos inside, MapStorage.readBlock_eq, mirrors.reads_eq]

private theorem mirrors_step {s : Storages} {op : StorageOp} (mirrors : Mirrors s)
    (orderly : Orderly o s op) : ∃ t, storageStep o s op = some t ∧ Mirrors t := by
  cases op with
  | write addr byte =>
    have inside : addr.toNat < s.array.size := orderly.1
    have next : storageStep o s (.write addr byte) = some ⟨s.map.write o addr byte,
        { s.array with data := Function.update s.array.data addr byte }⟩ := by
      rw [storageStep, ArrayStorage.write, if_pos inside]
      rfl
    refine ⟨_, next, unique_assign mirrors.unique, mirrors.room, fun a => ?_⟩
    rw [MapStorage.read_write mirrors.unique]
    dsimp only
    by_cases own : a = addr
    · rw [if_pos own, own, Function.update_self]
    · rw [if_neg own, Function.update_of_ne own, mirrors.reads]
  | writeBlock addr ptr len =>
    have inside : addr.toNat + len ≤ s.array.size := orderly.1
    have room := mirrors.room
    obtain ⟨unique, reads⟩ := MapStorage.writeBlock_spec (o := o) mirrors.unique ptr len
      (by omega)
    have next : storageStep o s (.writeBlock addr ptr len) = some ⟨s.map.writeBlock o addr ptr len,
        { s.array with data := writeBytes s.array.data addr ptr len }⟩ := by
      rw [storageStep, ArrayStorage.writeBlock, if_pos inside]
      rfl
    refine ⟨_, next, unique, room, fun a => ?_⟩
    rw [reads, mirrors.reads_eq]
  | erase start stop =>
    have inside : start ≤ stop ∧ stop.toNat ≤ s.array.size := orderly.1
    obtain ⟨map, erased, reads⟩ :=
      (MapStorage.erase_zeroes_iff mirrors.unique inside.1).mpr orderly.2
    have next : storageStep o s (.erase start stop) = some ⟨map, { s.array with
        data := writeBytes s.array.data start (fun _ => 0) (stop - start).toNat }⟩ := by
      rw [storageStep, erased, Option.bind_some, ArrayStorage.erase, if_pos inside]
      rfl
    refine ⟨_, next, MapStorage.unique_erase mirrors.unique erased, mirrors.room, fun a => ?_⟩
    rw [reads, mirrors.reads_eq]

/-- Every run of operations inside two storages in which each erase meets its range in iteration
order exists, and both storages read the same bytes after it. -/
theorem storages_agree (o : Arrangement (BitVec 32) (BitVec 8)) (size : ℕ) (room : size < 2 ^ 32)
    (ops : List StorageOp)
    (orderly : Along (storageStep o) (Orderly o) (Storages.init size) ops) :
    ∃ s, run (storageStep o) (Storages.init size) ops = some s ∧ Agree s := by
  have start : Mirrors (Storages.init size) := ⟨List.nodup_nil, room, fun _ => rfl⟩
  obtain ⟨s, reached, mirrors⟩ :=
    run_completes (fun s op mirrors orderly => mirrors_step mirrors orderly) start orderly
  exact ⟨s, reached, mirrors.agree⟩

/-- New entries go to the end. -/
def appendOrder : Arrangement (BitVec 32) (BitVec 8) where
  place l e := l ++ [e]
  perm _ _ := List.perm_append_singleton _ _

instance (size : ℕ) : ∀ op : StorageOp, Decidable (op.Inside size)
  | .write addr _ => inferInstanceAs (Decidable (addr.toNat < size))
  | .writeBlock addr _ len => inferInstanceAs (Decidable (addr.toNat + len ≤ size))
  | .erase start stop => inferInstanceAs (Decidable (start ≤ stop ∧ stop.toNat ≤ size))

instance (s : MapStorage) (start stop : BitVec 32) : Decidable (ErasesRange o s start stop) :=
  have _entries : Decidable (∀ e ∈ s.data, e.2 ≠ 0 →
      (e ∈ spanned (s.bracket o start stop) start stop ↔ start ≤ e.1 ∧ e.1 < stop)) :=
    List.decidableBAll _ _
  inferInstanceAs (Decidable (_ ∧ _))

instance (s : Storages) : ∀ op, Decidable (Orderly o s op)
  | .write addr _ => inferInstanceAs (Decidable (addr.toNat < s.array.size ∧ True))
  | .writeBlock addr _ len => inferInstanceAs (Decidable (addr.toNat + len ≤ s.array.size ∧ True))
  | .erase start stop => inferInstanceAs
      (Decidable ((start ≤ stop ∧ stop.toNat ≤ s.array.size) ∧ ErasesRange o s.map start stop))

/-- Bytes written in the order of their addresses, and an erase of the first two. -/
def sortedOps : List StorageOp :=
  [.write 0 9, .write 1 7, .writeBlock 2 (fun _ => 5) 3, .erase 0 2]

theorem storages_agree_sorted :
    ∃ s, run (storageStep appendOrder) (Storages.init 16) sortedOps = some s ∧ Agree s :=
  storages_agree appendOrder 16 (by omega) sortedOps (by decide +kernel)

/-- A byte written before the start of an erase was known to the map keeps its value. -/
theorem storages_disagree :
    ¬ ∀ (o : Arrangement (BitVec 32) (BitVec 8)) (size : ℕ) (ops : List StorageOp),
      size < 2 ^ 32 → (∀ op ∈ ops, op.Inside size) →
      ∃ s, run (storageStep o) (Storages.init size) ops = some s ∧ Agree s := by
  intro claim
  obtain ⟨s, reached, agree⟩ := claim appendOrder 16 [.write 1 7, .erase 0 4] (by omega) (by decide)
  have reads := agree.1 1
  obtain rfl := Option.some.inj (reached.symm.trans rfl)
  exact absurd (reads (by decide)) (by decide)

end Socrocket.Memory
