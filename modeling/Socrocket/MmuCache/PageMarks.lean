/- Socrocket/MmuCache/PageMarks
   digest: The referenced and modified bits: what a page walk leaves of them in the tables. -/

import Socrocket.MmuCache.FaultRegisters

set_option autoImplicit false
set_option relaxedAutoImplicit false

namespace Socrocket.MmuCache

open Socrocket.Base
open Socrocket.Base.ByteMemory
open Socrocket.Base.TableWalk

/-- The referenced bit, and the modified bit of a store. -/
def pageMarks (isWrite : Bool) : BitVec 32 := if isWrite then 1#32 <<< 6 ||| 1#32 <<< 5 else 1#32 <<< 5

/-- Bits are set in one word of a memory, and nothing else changes. -/
structure SetsBits (place marks : BitVec 32) (mem mem' : Memory 32) : Prop where
  marked : readWord mem' place = readWord mem place ||| marks
  others : ∀ a, ¬InRange place 4 a → mem' a = mem a

variable (cfg : MmuConfig) (m : Mmu) (b : AhbMemory) (va asi : BitVec 32) (isDbg isWrite : Bool)

/-- The address of the entry that a walk ends at. -/
def usedEntry (mem : Memory 32) : BitVec 32 := (sourceWalk cfg m mem va).trace.getLastD m.root

/-- An access that is translated sets the marks of the entry it uses, and one that faults changes no
memory. -/
structure MarksEntry : Prop where
  translated : (getPhysicalAddress cfg m b va asi isDbg isWrite).errorCode = 0 →
    SetsBits (usedEntry cfg m va b.memory) (pageMarks isWrite) b.memory
      (getPhysicalAddress cfg m b va asi isDbg isWrite).bus.memory
  faulting : (getPhysicalAddress cfg m b va asi isDbg isWrite).errorCode ≠ 0 →
    (getPhysicalAddress cfg m b va asi isDbg isWrite).bus.memory = b.memory

/-- The tables translate an access: its walk ends at a page table entry that permits it. -/
def Translates (mem : Memory 32) : Prop :=
  (sourceWalk cfg m mem va).fault = none ∧ Permitted asi isWrite (sourceWalk cfg m mem va).entry

variable {cfg m b va asi isDbg isWrite}

/-- A walk changes no memory: the marks are set in a copy of the entry. -/
theorem getPhysicalAddress_memory :
    (getPhysicalAddress cfg m b va asi isDbg isWrite).bus.memory = b.memory := by
  rw [getPhysicalAddress_bus]
  rfl

theorem readWord_usedEntry (mem : Memory 32) :
    readWord mem (usedEntry cfg m va mem) = (sourceWalk cfg m mem va).entry :=
  (walk_entry ..).symm

theorem faultCode_ne_zero {level ft : ℕ} (type : ft = 1 ∨ ft = 4) : faultCode level ft ≠ 0 := by
  intro zero
  rcases type with rfl | rfl
  · have bit := congrArg (fun x : BitVec 32 => x.getLsbD 2) zero
    simp [faultCode] at bit
  · have bit := congrArg (fun x : BitVec 32 => x.getLsbD 4) zero
    simp [faultCode] at bit

theorem errorCode_eq_zero_iff :
    (getPhysicalAddress cfg m b va asi isDbg isWrite).errorCode = 0 ↔
      Translates cfg m va asi isWrite b.memory := by
  rw [getPhysicalAddress_eq, Translates]
  cases fault : (sourceWalk cfg m b.memory va).fault with
  | some ft => exact iff_of_false (faultCode_ne_zero (sourceWalk_fault fault)) (by simp)
  | none => simp only [checkAccess_error_iff, true_and]

theorem eq_or_iff (x marks : BitVec 32) : x = x ||| marks ↔ x &&& marks = marks := by
  constructor
  · intro same
    ext i hi
    have bit : x[i] = (x[i] || marks[i]) := by
      simpa only [BitVec.getElem_or] using congrArg (fun y : BitVec 32 => y[i]) same
    rw [BitVec.getElem_and]
    cases set : marks[i] with
    | false => exact Bool.and_false _
    | true => rw [bit, set, Bool.or_true, Bool.and_true]
  · intro has
    ext i hi
    have bit : (x[i] && marks[i]) = marks[i] := by
      simpa only [BitVec.getElem_and] using congrArg (fun y : BitVec 32 => y[i]) has
    rw [BitVec.getElem_or, ← bit]
    cases x[i] with
    | false => rfl
    | true => rfl

/-- A walk leaves the marks an access is to leave if and only if the tables do not translate the access
or its entry has the marks already: no walk ever writes an entry back. -/
theorem page_marks_iff (cfg : MmuConfig) (m : Mmu) (b : AhbMemory) (va asi : BitVec 32)
    (isDbg isWrite : Bool) :
    MarksEntry cfg m b va asi isDbg isWrite ↔
      (Translates cfg m va asi isWrite b.memory →
        (sourceWalk cfg m b.memory va).entry &&& pageMarks isWrite = pageMarks isWrite) := by
  constructor
  · intro marks translates
    have set := (marks.translated (errorCode_eq_zero_iff.mpr translates)).marked
    rw [getPhysicalAddress_memory, readWord_usedEntry] at set
    exact (eq_or_iff ..).mp set
  · intro already
    refine ⟨fun none => ⟨?_, fun a _ => ?_⟩, fun _ => getPhysicalAddress_memory⟩
    · rw [getPhysicalAddress_memory, readWord_usedEntry]
      exact (eq_or_iff ..).mpr (already (errorCode_eq_zero_iff.mp none))
    · rw [getPhysicalAddress_memory]

/-- The first load of the lowest page leaves its entry without the referenced bit. -/
theorem page_marks_missing :
    ¬ ∀ (cfg : MmuConfig) (m : Mmu) (b : AhbMemory) (va asi : BitVec 32) (isDbg isWrite : Bool),
      MarksEntry cfg m b va asi isDbg isWrite := by
  intro claim
  have marks := claim smallMmu enabledMmu ⟨identityTables, [], []⟩ 0x40 0xb false false
  have set := (marks.translated (by decide)).marked
  exact absurd set (by decide)

end Socrocket.MmuCache
