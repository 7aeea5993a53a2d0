/- Socrocket/Core/RegisterBank
   digest: Registers created in a bank, the search by offset and the search for the offset. -/

import Mathlib.Data.List.Induction
import Socrocket.Base.Heap
import Socrocket.Base.OrderedMap
import Socrocket.Core.RegisterFields

set_option autoImplicit false
set_option relaxedAutoImplicit false

namespace Socrocket.Core.RegisterBank

open Socrocket.Base
open Socrocket.Core.RegisterFields (Declared)

variable {w : ℕ}

/-! ## The bank -/

/-- What a bank allocates: its registers, and the nodes of its map. -/
inductive Object (w : ℕ) where
  | register (name : String) (declared : Declared w)
  | mapNode

/-- The value in a node of the map: the location it lies at and the register it points to. -/
structure Slot where
  location : ℕ
  reg : ℕ

structure SrRegisterBank (w : ℕ) where
  heap : Heap (Object w)
  mRegister : OrderedMap (BitVec w) Slot (Compare.word w)
  mRegisters : List ℕ

/-- A call of `create_register`, with a description or without one. The name is the one that the
register has in the hierarchy of the simulation. -/
structure Create (w : ℕ) where
  name : String
  descr : Option String
  addr : BitVec w
  initVal : BitVec w
  writeMask : BitVec w

namespace SrRegisterBank

def empty : SrRegisterBank w := ⟨Heap.empty, OrderedMap.empty, []⟩

/-- `m_register.insert(std::make_pair(addr, reg))`. A key that is there keeps its value. -/
def insert (b : SrRegisterBank w) (addr : BitVec w) (reg : ℕ) : SrRegisterBank w :=
  match b.mRegister.find? addr with
  | some _ => b
  | none =>
    { b with
      heap := (b.heap.alloc .mapNode).1
      mRegister := b.mRegister.insert addr ⟨(b.heap.alloc .mapNode).2, reg⟩ }

/-- `m_register[addr] = reg`. A key that is there keeps its node. -/
def assign (b : SrRegisterBank w) (addr : BitVec w) (reg : ℕ) : SrRegisterBank w :=
  match b.mRegister.find? addr with
  | some slot => { b with mRegister := b.mRegister.set addr { slot with reg := reg } }
  | none => b.insert addr reg

/-- `new sr_register`, with the address it is at. -/
def newRegister (b : SrRegisterBank w) (call : Create w) : SrRegisterBank w × ℕ :=
  let (heap, reg) := b.heap.alloc
    (.register call.name (RegisterFields.createRegister call.initVal call.writeMask))
  ({ b with heap := heap }, reg)

/-- The two overloads differ in how they enter the register in the map. -/
def enter (b : SrRegisterBank w) (call : Create w) (reg : ℕ) : SrRegisterBank w :=
  match call.descr with
  | none => b.assign call.addr reg
  | some _ => b.insert call.addr reg

def pushBack (b : SrRegisterBank w) (reg : ℕ) : SrRegisterBank w :=
  { b with mRegisters := b.mRegisters ++ [reg] }

/-- Allocate a register, enter it in the map and the list, and return it. -/
def createRegister (b : SrRegisterBank w) (call : Create w) : SrRegisterBank w × ℕ :=
  let (b, reg) := b.newRegister call
  ((b.enter call reg).pushBack reg, reg)

def getSrRegister (b : SrRegisterBank w) (offset : BitVec w) : Option ℕ :=
  (b.mRegister.find? offset).map Slot.reg

/-- The key of the first slot that lies where the register lies. -/
def getOffset (b : SrRegisterBank w) : Option ℕ → Option (BitVec w)
  | none => none
  | some reg => (b.mRegister.entries.find? fun e => e.2.location = reg).map Prod.fst

end SrRegisterBank

inductive SciregResponse where
  | success
  | failure

/-- A register with its place in the bank. -/
structure SciregMappedRegion where
  region : ℕ
  name : String
  offset : BitVec 64

namespace SrRegisterBank

/-- The region of one register. Without an offset the assertion fails. -/
def mappedRegion (b : SrRegisterBank w) (reg : ℕ) : Option SciregMappedRegion :=
  match b.heap.get? reg with
  | some (.register name _) => (b.getOffset (some reg)).map fun a => ⟨reg, name, a.setWidth 64⟩
  | _ => none

/-- Append the regions of all registers. Only the whole range can be asked for. -/
def sciregGetChildRegions (b : SrRegisterBank w) (mappedRegions : List SciregMappedRegion)
    (size offset : BitVec 64) : Option (SciregResponse × List SciregMappedRegion) :=
  if size ≠ -1 ∨ offset ≠ 0 then some (.failure, mappedRegions)
  else
    (b.mRegisters.foldlM (fun regions reg => (b.mappedRegion reg).map fun mr => regions ++ [mr])
      mappedRegions).map fun regions => (.success, regions)

end SrRegisterBank

/-- The bank after the calls, and the register that each of them returned. -/
def createRegisters (calls : List (Create w)) : SrRegisterBank w × List (Create w × ℕ) :=
  calls.foldl (fun s call =>
    ((s.1.createRegister call).1, s.2 ++ [(call, (s.1.createRegister call).2)]))
    (SrRegisterBank.empty, [])

theorem createRegisters_append (calls : List (Create w)) (call : Create w) :
    createRegisters (calls ++ [call]) =
      (((createRegisters calls).1.createRegister call).1,
        (createRegisters calls).2 ++ [(call, ((createRegisters calls).1.createRegister call).2)]) := by
  rw [createRegisters, List.foldl_append]
  rfl

/-! ## What lies where -/

/-- Slots lie in nodes of the map, the listed registers are registers. -/
structure Placed (b : SrRegisterBank w) : Prop where
  slots : ∀ e ∈ b.mRegister.entries, b.heap.get? e.2.location = some .mapNode
  registers : ∀ reg ∈ b.mRegisters, ∃ name declared,
    b.heap.get? reg = some (.register name declared)

/-- What entering a register in the map keeps: the objects on the heap, the list of the registers
and that slots lie in nodes. -/
structure Enters (b b' : SrRegisterBank w) : Prop where
  held : ∀ l o, b.heap.get? l = some o → b'.heap.get? l = some o
  listed : b'.mRegisters = b.mRegisters
  slots : (∀ e ∈ b.mRegister.entries, b.heap.get? e.2.location = some .mapNode) →
    ∀ e ∈ b'.mRegister.entries, b'.heap.get? e.2.location = some .mapNode

theorem enters_insert (b : SrRegisterBank w) (addr : BitVec w) (reg : ℕ) :
    Enters b (b.insert addr reg) := by
  rw [SrRegisterBank.insert]
  cases found : b.mRegister.find? addr with
  | some slot => exact ⟨fun _ _ held => held, rfl, fun slots => slots⟩
  | none =>
    refine ⟨fun l o held => Heap.get?_alloc held _, rfl, fun slots e member => ?_⟩
    rcases OrderedMap.mem_of_mem_insertEntry member with rfl | old
    · exact Heap.get?_alloc_self b.heap _
    · exact Heap.get?_alloc (slots e old) _

theorem enters_assign (b : SrRegisterBank w) (addr : BitVec w) (reg : ℕ) :
    Enters b (b.assign addr reg) := by
  rw [SrRegisterBank.assign]
  cases found : b.mRegister.find? addr with
  | none => exact enters_insert b addr reg
  | some slot =>
    refine ⟨fun _ _ held => held, rfl, fun slots e member => ?_⟩
    rcases (OrderedMap.mem_set e).mp member with rfl | ⟨old, -⟩
    · exact slots (addr, slot) (OrderedMap.find?_eq_some.mp found)
    · exact slots e old

theorem enters_enter (b : SrRegisterBank w) (call : Create w) (reg : ℕ) :
    Enters b (b.enter call reg) := by
  rw [SrRegisterBank.enter]
  cases call.descr with
  | none => exact enters_assign b call.addr reg
  | some d => exact enters_insert b call.addr reg

theorem placed_createRegister {b : SrRegisterBank w} (placed : Placed b) (call : Create w) :
    Placed (b.createRegister call).1 ∧
      (b.createRegister call).1.mRegisters = b.mRegisters ++ [(b.createRegister call).2] := by
  have enters := enters_enter (b.newRegister call).1 call (b.newRegister call).2
  change Placed (((b.newRegister call).1.enter call (b.newRegister call).2).pushBack _) ∧
    ((b.newRegister call).1.enter call (b.newRegister call).2).mRegisters ++ [_] = _
  rw [enters.listed]
  refine ⟨⟨enters.slots fun e member => Heap.get?_alloc (placed.slots e member) _, ?_⟩, rfl⟩
  intro r member
  rw [SrRegisterBank.pushBack, enters.listed] at member
  rcases List.mem_append.mp member with old | new
  · obtain ⟨name, declared, held⟩ := placed.registers r old
    exact ⟨name, declared, enters.held r _ (Heap.get?_alloc held _)⟩
  · rw [List.mem_singleton.mp new]
    exact ⟨_, _, enters.held _ _ (Heap.get?_alloc_self b.heap _)⟩

theorem placed_createRegisters (calls : List (Create w)) :
    Placed (createRegisters calls).1 ∧
      (createRegisters calls).1.mRegisters = (createRegisters calls).2.map Prod.snd := by
  induction calls using List.reverseRecOn with
  | nil =>
    refine ⟨⟨?_, ?_⟩, rfl⟩
    · rintro e ⟨⟩
    · rintro reg ⟨⟩
  | append_singleton calls call ih =>
    obtain ⟨placed, listed⟩ := ih
    obtain ⟨placed', grown⟩ := placed_createRegister placed call
    rw [createRegisters_append]
    refine ⟨placed', ?_⟩
    change (((createRegisters calls).1.createRegister call).1).mRegisters = _
    rw [grown, listed, List.map_append]
    rfl

/-! ## Searches -/

theorem getOffset_eq_none {b : SrRegisterBank w} (placed : Placed b) {reg : ℕ}
    (listed : reg ∈ b.mRegisters) : b.getOffset (some reg) = none := by
  obtain ⟨name, declared, held⟩ := placed.registers reg listed
  have apart : ∀ e ∈ b.mRegister.entries, ¬ decide (e.2.location = reg) = true := by
    intro e member same
    have node := placed.slots e member
    rw [of_decide_eq_true same, held] at node
    cases node
  rw [SrRegisterBank.getOffset, List.find?_eq_none.mpr apart, Option.map_none]

theorem getSrRegister_insert {b : SrRegisterBank w} {addr : BitVec w}
    (fresh : b.mRegister.find? addr = none) (reg : ℕ) (offset : BitVec w) :
    (b.insert addr reg).getSrRegister offset =
      if offset = addr then some reg else b.getSrRegister offset := by
  rw [SrRegisterBank.insert, fresh, SrRegisterBank.getSrRegister, OrderedMap.find?_insert, fresh]
  split_ifs <;> rfl

theorem getSrRegister_createRegister {b : SrRegisterBank w} {call : Create w}
    (fresh : b.mRegister.find? call.addr = none) (offset : BitVec w) :
    (b.createRegister call).1.getSrRegister offset =
      if offset = call.addr then some (b.createRegister call).2 else b.getSrRegister offset := by
  have absent : (b.newRegister call).1.mRegister.find? call.addr = none := fresh
  have entered : (b.newRegister call).1.enter call (b.newRegister call).2 =
      (b.newRegister call).1.insert call.addr (b.newRegister call).2 := by
    rw [SrRegisterBank.enter]
    cases call.descr with
    | none => rw [SrRegisterBank.assign, absent]
    | some d => rfl
  change ((b.newRegister call).1.enter call (b.newRegister call).2).getSrRegister offset = _
  rw [entered]
  exact getSrRegister_insert absent _ offset

theorem map_fst_createRegisters (calls : List (Create w)) :
    (createRegisters calls).2.map Prod.fst = calls := by
  induction calls using List.reverseRecOn with
  | nil => rfl
  | append_singleton calls call ih =>
    rw [createRegisters_append, List.map_append, ih]
    rfl

/-- With distinct addresses, the search by offset finds the register created there. -/
theorem getSrRegister_eq_some_iff {calls : List (Create w)}
    (distinct : (calls.map Create.addr).Nodup) (offset : BitVec w) (reg : ℕ) :
    (createRegisters calls).1.getSrRegister offset = some reg ↔
      ∃ call, (call, reg) ∈ (createRegisters calls).2 ∧ call.addr = offset := by
  induction calls using List.reverseRecOn generalizing offset reg with
  | nil =>
    refine iff_of_false (fun found => ?_) ?_
    · cases found
    · rintro ⟨call, ⟨⟩, -⟩
  | append_singleton calls call ih =>
    rw [List.map_append, List.nodup_append] at distinct
    obtain ⟨before, -, apart⟩ := distinct
    have fresh : (createRegisters calls).1.mRegister.find? call.addr = none := by
      cases found : (createRegisters calls).1.mRegister.find? call.addr with
      | none => rfl
      | some slot =>
        have known : (createRegisters calls).1.getSrRegister call.addr = some slot.reg := by
          rw [SrRegisterBank.getSrRegister, found, Option.map_some]
        obtain ⟨earlier, created, same⟩ := (ih before call.addr slot.reg).mp known
        have member : earlier ∈ calls := by
          rw [← map_fst_createRegisters calls]
          exact List.mem_map_of_mem created
        exact absurd same (apart _ (List.mem_map_of_mem member) _ (List.mem_singleton.mpr rfl))
    rw [createRegisters_append]
    dsimp only
    rw [getSrRegister_createRegister fresh]
    by_cases here : offset = call.addr
    · rw [if_pos here, Option.some.injEq]
      constructor
      · rintro rfl
        exact ⟨call, List.mem_append_right _ (List.mem_singleton.mpr rfl), here.symm⟩
      · rintro ⟨c, member, address⟩
        rcases List.mem_append.mp member with old | new
        · have known := (ih before offset reg).mpr ⟨c, old, address⟩
          rw [SrRegisterBank.getSrRegister, here, fresh] at known
          cases known
        · cases List.mem_singleton.mp new
          rfl
    · rw [if_neg here, ih before]
      refine exists_congr fun c => and_congr_left fun address => ?_
      rw [List.mem_append]
      refine (or_iff_left fun new => ?_).symm
      cases List.mem_singleton.mp new
      exact here address.symm

theorem sciregGetChildRegions_eq_none {b : SrRegisterBank w} (placed : Placed b)
    (nonempty : b.mRegisters ≠ []) (mappedRegions : List SciregMappedRegion) :
    b.sciregGetChildRegions mappedRegions (-1) 0 = none := by
  obtain ⟨reg, rest, list⟩ := List.exists_cons_of_ne_nil nonempty
  have listed : reg ∈ b.mRegisters := by
    rw [list]
    exact List.mem_cons_self
  have unmapped : b.mappedRegion reg = none := by
    obtain ⟨name, declared, held⟩ := placed.registers reg listed
    rw [SrRegisterBank.mappedRegion, held]
    dsimp only
    rw [getOffset_eq_none placed listed, Option.map_none]
  rw [SrRegisterBank.sciregGetChildRegions, if_neg (by simp), list, List.foldlM_cons, unmapped]
  rfl

/-! ## Whether the lookup is invertible -/

/-- The search by offset finds the register created at each offset and nothing else. -/
def Finds (calls : List (Create w)) : Prop :=
  ∀ offset reg, (createRegisters calls).1.getSrRegister offset = some reg ↔
    ∃ call, (call, reg) ∈ (createRegisters calls).2 ∧ call.addr = offset

/-- The search by offset is exact, the search for the offset is its inverse, and the regions are
those of the registers at their offsets. -/
structure LookupInvertible (calls : List (Create w)) : Prop where
  finds : Finds calls
  offset : ∀ p ∈ (createRegisters calls).2,
    (createRegisters calls).1.getOffset (some p.2) = some p.1.addr
  regions : ∀ mappedRegions,
    (createRegisters calls).1.sciregGetChildRegions mappedRegions (-1) 0 =
      some (.success, mappedRegions ++
        (createRegisters calls).2.map fun p => ⟨p.2, p.1.name, p.1.addr.setWidth 64⟩)

/-- For registers at distinct addresses the search by offset is exact, the search for the offset
fails for each of them, so the regions of a bank with registers are not listed, and the lookup is
invertible only when there is no register. -/
theorem lookup_invertible_iff (calls : List (Create w)) (distinct : (calls.map Create.addr).Nodup) :
    Finds calls ∧
      (∀ p ∈ (createRegisters calls).2, (createRegisters calls).1.getOffset (some p.2) = none) ∧
      (calls ≠ [] → ∀ mappedRegions,
        (createRegisters calls).1.sciregGetChildRegions mappedRegions (-1) 0 = none) ∧
      (LookupInvertible calls ↔ calls = []) := by
  have finds : Finds calls := fun offset reg => getSrRegister_eq_some_iff distinct offset reg
  obtain ⟨placed, listed⟩ := placed_createRegisters calls
  have lost : ∀ p ∈ (createRegisters calls).2,
      (createRegisters calls).1.getOffset (some p.2) = none := by
    intro p created
    apply getOffset_eq_none placed
    rw [listed]
    exact List.mem_map_of_mem created
  have refused : calls ≠ [] → ∀ mappedRegions,
      (createRegisters calls).1.sciregGetChildRegions mappedRegions (-1) 0 = none := by
    intro nonempty
    apply sciregGetChildRegions_eq_none placed
    rw [listed]
    intro none
    apply nonempty
    rw [← map_fst_createRegisters calls, List.map_eq_nil_iff.mp none, List.map_nil]
  refine ⟨finds, lost, refused, ?_, ?_⟩
  · intro invertible
    by_contra nonempty
    have regions := invertible.regions []
    rw [refused nonempty] at regions
    cases regions
  · rintro rfl
    refine ⟨finds, ?_, ?_⟩
    · rintro p ⟨⟩
    · intro mappedRegions
      exact congrArg some (congrArg (Prod.mk _) (List.append_nil mappedRegions).symm)

/-- Two registers of a cache line, one created with a description. -/
def tagRegisters : List (Create 32) :=
  [⟨"tag.valid", none, 0x0, 0, 0xFFFFFFFF⟩, ⟨"tag.atag", some "address tag", 0x4, 0, 0xFFFFFFFF⟩]

theorem lookup_invertible_tagRegisters :
    Finds tagRegisters ∧ (LookupInvertible tagRegisters ↔ tagRegisters = []) := by
  obtain ⟨finds, -, -, invertible⟩ := lookup_invertible_iff tagRegisters (by decide)
  exact ⟨finds, invertible⟩

/-- A register is found at its offset, its offset is not found, and the assertion fails when the
child regions are listed. -/
theorem offset_of_register_not_found : ∃ reg,
    (createRegisters tagRegisters).1.getSrRegister 0x4 = some reg ∧
      (createRegisters tagRegisters).1.getOffset (some reg) = none ∧
      (createRegisters tagRegisters).1.sciregGetChildRegions [] (-1) 0 = none ∧
      ¬ LookupInvertible tagRegisters := by
  have refused : (createRegisters tagRegisters).1.sciregGetChildRegions [] (-1) 0 = none := by
    rfl
  refine ⟨2, by rfl, by rfl, refused, ?_⟩
  intro invertible
  have regions := invertible.regions []
  rw [refused] at regions
  cases regions

end Socrocket.Core.RegisterBank
