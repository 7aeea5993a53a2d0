/- Socrocket/MmuCache/PageWalk
   digest: The page walk of the source against the walk of the reference unit. -/

import Socrocket.Base.BitField
import Socrocket.Base.TableWalk
import Socrocket.MmuCache.Mmu

set_option autoImplicit false
set_option relaxedAutoImplicit false

namespace Socrocket.MmuCache

open Socrocket.Base
open Socrocket.Base.BitField
open Socrocket.Base.ByteMemory
open Socrocket.Base.TableWalk

section Reference

/-- The table format of the reference unit: fault type 1 for invalid entries, 4 for reserved ones.
The context table holds no page table entries, and the third level no descriptors. -/
def sparc : Format (BitVec 32) (BitVec 32) (BitVec 32) ℕ where
  kind level pde :=
    match entryType pde with
    | .invalid => .fault 1
    | .ptd => .table
    | .pte => if level = 0 then .fault 4 else .leaf
    | .reserved => .fault 4
  child := entryAddress
  tooDeep := 4

/-- A field of the virtual page number. -/
def vpnField (vpn : BitVec 32) (start width : ℕ) : BitVec 32 :=
  (vpn >>> start) &&& BitVec.ofNat 32 (2 ^ width - 1)

/-- The indices into the tables of levels 1 to 3: adjacent fields of the virtual page number. -/
def Widths.indices (w : Widths) (va : BitVec 32) : List (BitVec 32) :=
  let vpn := va >>> (32 - w.mVtagWidth)
  [vpnField vpn (w.mIdx2 + w.mIdx3) w.mIdx1, vpnField vpn w.mIdx3 w.mIdx2, vpnField vpn 0 w.mIdx3]

/-- The number of offset bits of a page whose entry is found at a level. -/
def Widths.pageBits (w : Widths) : ℕ → ℕ
  | 1 => 32 - w.mVtagWidth + w.mIdx3 + w.mIdx2
  | 2 => 32 - w.mVtagWidth + w.mIdx3
  | _ => 32 - w.mVtagWidth

/-- The 36 bit physical address: the page number of the entry above the offset of the page. -/
def physicalAddress (pde va : BitVec 32) (bits : ℕ) : BitVec 64 :=
  ((pde &&& ~~~0xFF).setWidth 64 <<< 4) &&& ~~~(BitVec.ofNat 64 (2 ^ bits - 1)) |||
    (va.setWidth 64 &&& BitVec.ofNat 64 (2 ^ bits - 1))

/-- The address of the context table entry. -/
def Mmu.root (m : Mmu) : BitVec 32 := (m.contextTablePointerReg <<< 4) + (m.contextReg <<< 2)

variable (cfg : MmuConfig)

/-- The walk of the reference unit. -/
def referenceWalk (m : Mmu) (mem : Memory 32) (va : BitVec 32) : Walk (BitVec 32) (BitVec 32) ℕ :=
  walk sparc (readWord mem) 0 ((widths cfg.mmupgsz).indices va) m.root

/-- The bus transfer that reads a table entry. -/
def tableRead (isDbg : Bool) (a : BitVec 32) : Transfer := ⟨false, ⟨a, 0x8, 4, isDbg, false⟩⟩

/-- A fault code: the level and the fault type. -/
def faultCode (level faultType : ℕ) : BitVec 32 :=
  BitVec.ofNat 32 level <<< 8 ||| BitVec.ofNat 32 faultType <<< 2

/-- The access permissions of an entry admit an access. -/
def Permitted (asi : BitVec 32) (isWrite : Bool) (pde : BitVec 32) : Prop :=
  accessError (accessIndexOf asi isWrite) ((pde >>> 2) &&& 0x7) = 0

instance (asi : BitVec 32) (isWrite : Bool) (pde : BitVec 32) : Decidable (Permitted asi isWrite pde) :=
  inferInstanceAs (Decidable (_ = _))

/-- A page walk does what the reference unit does: it reads the same entries; a fault has the level
and the type of the entry, and no address; a page whose access is permitted gives its physical
address. -/
structure Implements (m : Mmu) (b : AhbMemory) (va asi : BitVec 32) (isDbg isWrite : Bool)
    (result : PageWalk) : Prop where
  reads : result.bus = { b with
    transfers := b.transfers ++ (referenceWalk cfg m b.memory va).trace.map (tableRead isDbg) }
  faults : ∀ ft, (referenceWalk cfg m b.memory va).fault = some ft →
    result.errorCode = faultCode (referenceWalk cfg m b.memory va).level ft ∧ result.paddr = noPaddr
  translates : (referenceWalk cfg m b.memory va).fault = none →
    Permitted asi isWrite (referenceWalk cfg m b.memory va).entry → result.errorCode = 0 ∧
      result.paddr = physicalAddress (referenceWalk cfg m b.memory va).entry va
        ((widths cfg.mmupgsz).pageBits (referenceWalk cfg m b.memory va).level)
  denies : (referenceWalk cfg m b.memory va).fault = none →
    ¬ Permitted asi isWrite (referenceWalk cfg m b.memory va).entry → result.errorCode ≠ 0

end Reference

section Source

/-- The indices the source takes from the virtual page number, for every page size. -/
def sourceIndices (cfg : MmuConfig) (va : BitVec 32) : List (BitVec 32) :=
  let vpn := va >>> (32 - (widths cfg.mmupgsz).mVtagWidth)
  [(vpn >>> 12) &&& 0xff, (vpn >>> 6) &&& 0x3f, vpn &&& 0x3f]

/-- The number of offset bits the source takes for the page sizes of the levels. -/
def sourcePageBits : ℕ → ℕ
  | 1 => 24
  | 2 => 18
  | _ => 12

variable {cfg : MmuConfig} {m : Mmu} {b : AhbMemory} {va asi : BitVec 32} {isDbg isWrite : Bool}

/-- The walk of the source, as a walk with the indices it takes. -/
def sourceWalk (cfg : MmuConfig) (m : Mmu) (mem : Memory 32) (va : BitVec 32) :
    Walk (BitVec 32) (BitVec 32) ℕ :=
  walk sparc (readWord mem) 0 (sourceIndices cfg va) m.root

/-- The bus interface after the reads of a walk. -/
def afterReads (b : AhbMemory) (isDbg : Bool) (trace : List (BitVec 32)) : AhbMemory :=
  { b with transfers := b.transfers ++ trace.map (tableRead isDbg) }

private theorem readPde_eq (p : Cacheability) (b : AhbMemory) (isDbg : Bool) (a : BitVec 32) :
    readPde p b isDbg a = (afterReads b isDbg [a], readWord b.memory a) := by
  simp [readPde, AhbMemory.memRead, afterReads, tableRead, readWord, memcpy, bytesAt]

private theorem afterReads_afterReads (b : AhbMemory) (isDbg : Bool) (t u : List (BitVec 32)) :
    afterReads (afterReads b isDbg t) isDbg u = afterReads b isDbg (t ++ u) := by
  simp [afterReads]

theorem getPhysicalAddress_eq :
    getPhysicalAddress cfg m b va asi isDbg isWrite =
      match (sourceWalk cfg m b.memory va).fault with
      | some ft =>
        ⟨afterReads b isDbg (sourceWalk cfg m b.memory va).trace,
          faultCode (sourceWalk cfg m b.memory va).level ft, noPaddr, accessIndexOf asi isWrite, 0,
          (sourceWalk cfg m b.memory va).entry⟩
      | none => checkAccess (afterReads b isDbg (sourceWalk cfg m b.memory va).trace)
          (accessIndexOf asi isWrite) (sourceWalk cfg m b.memory va).entry va
          (BitVec.ofNat 64 (2 ^ sourcePageBits (sourceWalk cfg m b.memory va).level)) isWrite := by
  have root : (m.contextTablePointerReg <<< 4) + (m.contextReg <<< 2) = m.root := rfl
  have memory (t : List (BitVec 32)) : (afterReads b isDbg t).memory = b.memory := rfl
  simp only [getPhysicalAddress, root, readPde_eq, memory, afterReads_afterReads, sourceWalk,
    sourceIndices]
  generalize m.root = root
  cases context : entryType (readWord b.memory root) with
  | invalid =>
    rw [walk_fault (f := 1) (by simp only [sparc, context])]
    dsimp only
    rfl
  | pte =>
    rw [walk_fault (f := 4) (by simp only [sparc, context, if_true])]
    dsimp only
    rfl
  | reserved =>
    rw [walk_fault (f := 4) (by simp only [sparc, context])]
    dsimp only
    rfl
  | ptd =>
    rw [walk_table (by simp only [sparc, context])]
    simp only [show sparc.child = entryAddress from rfl]
    generalize entryAddress (readWord b.memory root) _ = first
    cases level1 : entryType (readWord b.memory first) with
    | invalid =>
      rw [walk_fault (f := 1) (by simp only [sparc, level1])]
      dsimp only
      rfl
    | pte =>
      rw [walk_leaf (by simp [sparc, level1])]
      dsimp only
      rfl
    | reserved =>
      rw [walk_fault (f := 4) (by simp only [sparc, level1])]
      dsimp only
      rfl
    | ptd =>
      rw [walk_table (by simp only [sparc, level1])]
      simp only [show sparc.child = entryAddress from rfl]
      generalize entryAddress (readWord b.memory first) _ = second
      cases level2 : entryType (readWord b.memory second) with
      | invalid =>
        rw [walk_fault (f := 1) (by simp only [sparc, level2])]
        dsimp only
        rfl
      | pte =>
        rw [walk_leaf (by simp [sparc, level2])]
        dsimp only
        rfl
      | reserved =>
        rw [walk_fault (f := 4) (by simp only [sparc, level2])]
        dsimp only
        rfl
      | ptd =>
        rw [walk_table (by simp only [sparc, level2])]
        simp only [show sparc.child = entryAddress from rfl]
        generalize entryAddress (readWord b.memory second) _ = third
        cases level3 : entryType (readWord b.memory third) with
        | invalid =>
          rw [walk_fault (f := 1) (by simp only [sparc, level3])]
          dsimp only
          rfl
        | pte =>
          rw [walk_leaf (by simp [sparc, level3])]
          dsimp only
          rfl
        | reserved =>
          rw [walk_fault (f := 4) (by simp only [sparc, level3])]
          dsimp only
          rfl
        | ptd =>
          rw [walk_tooDeep (by simp only [sparc, level3])]
          dsimp only
          rfl

private theorem vpnField_eq_iff (vpn : BitVec 32) (start start' : ℕ) {width width' : ℕ}
    (h : width ≤ 32) (h' : width' ≤ 32) : vpnField vpn start width = vpnField vpn start' width' ↔
      vpn.toNat / 2 ^ start % 2 ^ width = vpn.toNat / 2 ^ start' % 2 ^ width' := by
  rw [← BitVec.toNat_inj, vpnField, vpnField, toNat_and_lowMask _ h, toNat_and_lowMask _ h',
    toNat_shiftRight, toNat_shiftRight]

private theorem sourceIndices_fields (cfg : MmuConfig) (va : BitVec 32) :
    sourceIndices cfg va =
      let vpn := va >>> (32 - (widths cfg.mmupgsz).mVtagWidth)
      [vpnField vpn 12 8, vpnField vpn 6 6, vpnField vpn 0 6] := by
  simp [sourceIndices, vpnField]

/-- The first index of the source is that of the reference unit, except for 32 kB pages from 128 MB
on. -/
theorem first_index_iff (pgsz : Fin 4) (va : BitVec 32) :
    vpnField (va >>> (32 - (widths pgsz).mVtagWidth)) 12 8 =
        vpnField (va >>> (32 - (widths pgsz).mVtagWidth)) ((widths pgsz).mIdx2 + (widths pgsz).mIdx3)
          (widths pgsz).mIdx1 ↔ (pgsz = 3 → va.toNat < 2 ^ 27) := by
  have lt := va.isLt
  match pgsz with
  | 0 => exact ⟨fun _ wide => absurd wide (by decide), fun _ => rfl⟩
  | 1 =>
    refine ⟨fun _ wide => absurd wide (by decide), fun _ => ?_⟩
    refine (vpnField_eq_iff _ 12 12 (by decide) (by decide : 7 ≤ 32)).mpr ?_
    rw [toNat_shiftRight]
    change va.toNat / 2 ^ 13 / 2 ^ 12 % 2 ^ 8 = va.toNat / 2 ^ 13 / 2 ^ 12 % 2 ^ 7
    omega
  | 2 =>
    refine ⟨fun _ wide => absurd wide (by decide), fun _ => ?_⟩
    refine (vpnField_eq_iff _ 12 12 (by decide) (by decide : 6 ≤ 32)).mpr ?_
    rw [toNat_shiftRight]
    change va.toNat / 2 ^ 14 / 2 ^ 12 % 2 ^ 8 = va.toNat / 2 ^ 14 / 2 ^ 12 % 2 ^ 6
    omega
  | 3 =>
    refine (vpnField_eq_iff _ 12 13 (by decide) (by decide : 4 ≤ 32)).trans ?_
    rw [toNat_shiftRight]
    change va.toNat / 2 ^ 15 / 2 ^ 12 % 2 ^ 8 = va.toNat / 2 ^ 15 / 2 ^ 13 % 2 ^ 4 ↔ _
    constructor
    · intro same _
      omega
    · intro low
      have small := low rfl
      omega

theorem sourceIndices_eq (cfg : MmuConfig) (va : BitVec 32)
    (low : cfg.mmupgsz = 3 → va.toNat < 2 ^ 27) :
    sourceIndices cfg va = (widths cfg.mmupgsz).indices va := by
  rw [sourceIndices_fields, Widths.indices]
  dsimp only
  rw [← (first_index_iff cfg.mmupgsz va).mpr low]
  generalize cfg.mmupgsz = pgsz at low
  have second : vpnField (va >>> (32 - (widths pgsz).mVtagWidth)) 6 6 =
      vpnField (va >>> (32 - (widths pgsz).mVtagWidth)) (widths pgsz).mIdx3 (widths pgsz).mIdx2 := by
    match pgsz with
    | 0 => rfl
    | 1 => rfl
    | 2 => rfl
    | 3 =>
      have small := low rfl
      refine (vpnField_eq_iff _ 6 6 (by decide) (by decide : 7 ≤ 32)).mpr ?_
      rw [toNat_shiftRight]
      change va.toNat / 2 ^ 15 / 2 ^ 6 % 2 ^ 6 = va.toNat / 2 ^ 15 / 2 ^ 6 % 2 ^ 7
      omega
  have third : (widths pgsz).mIdx3 = 6 := by
    match pgsz with
    | 0 | 1 | 2 | 3 => rfl
  rw [second, third]

private theorem getLsbD_pageNumber (pde : BitVec 32) (j : ℕ) :
    (pde &&& ~~~0xFF).getLsbD j = (decide (8 ≤ j) && pde.getLsbD j) := by
  have mask : (0xFF : BitVec 32).getLsbD j = (decide (j < 32) && decide (j < 8)) :=
    getLsbD_lowMask 8 j
  rw [BitVec.getLsbD_and, BitVec.getLsbD_not, mask]
  by_cases inside : j < 32
  · by_cases low : j < 8
    · have : ¬ 8 ≤ j := by omega
      simp [inside, low, this]
    · have : 8 ≤ j := by omega
      simp [inside, low, this]
  · have outside : pde.getLsbD j = false := BitVec.getLsbD_of_ge pde j (by omega)
    simp [outside]

theorem getLsbD_composePaddr (pde va : BitVec 32) (k : ℕ) (i : ℕ) :
    (composePaddr pde va (BitVec.ofNat 64 (2 ^ k))).getLsbD i =
      (decide (i < 36) && ((decide (12 ≤ i) && decide (i < 32) && pde.getLsbD (i - 4)) ||
        (decide (i < k) && va.getLsbD i))) := by
  have size : BitVec.ofNat 64 (2 ^ k) - 1#64 = BitVec.ofNat 64 (2 ^ k - 1) := by
    have pos : 0 < 2 ^ k := by positivity
    conv_lhs => rw [← Nat.sub_add_cancel pos, BitVec.ofNat_add]
    exact BitVec.add_sub_cancel ..
  have width : (1#64 <<< 36) - 1#64 = BitVec.ofNat 64 (2 ^ 36 - 1) := rfl
  rw [composePaddr, size, width, BitVec.getLsbD_and, BitVec.getLsbD_or, BitVec.getLsbD_and,
    BitVec.getLsbD_setWidth, BitVec.getLsbD_setWidth, getLsbD_lowMask, getLsbD_lowMask,
    BitVec.getLsbD_shiftLeft, getLsbD_pageNumber]
  have va_low (h : va.getLsbD i = true) : i < 32 := BitVec.lt_of_getLsbD h
  refine Bool.eq_iff_iff.mpr ?_
  simp only [Bool.and_eq_true, Bool.or_eq_true, decide_eq_true_eq, Bool.not_eq_true',
    decide_eq_false_iff_not]
  constructor
  · rintro ⟨page | offset, inside⟩
    · exact ⟨inside.2, .inl ⟨⟨by omega, page.2.1.1⟩, page.2.2.2⟩⟩
    · exact ⟨inside.2, .inr ⟨offset.2.2, offset.1.2⟩⟩
  · rintro ⟨inside, page | offset⟩
    · exact ⟨.inl ⟨by omega, ⟨page.1.2, by omega⟩, by omega, page.2⟩, by omega, inside⟩
    · exact ⟨.inr ⟨⟨by omega, offset.2⟩, by omega, offset.1⟩, by omega, inside⟩

theorem getLsbD_physicalAddress (pde va : BitVec 32) {k : ℕ} (low : 12 ≤ k) (i : ℕ) :
    (physicalAddress pde va k).getLsbD i =
      ((decide (k ≤ i) && decide (i < 36) && pde.getLsbD (i - 4)) ||
        (decide (i < k) && va.getLsbD i)) := by
  rw [physicalAddress, BitVec.getLsbD_or, BitVec.getLsbD_and, BitVec.getLsbD_and, BitVec.getLsbD_not,
    BitVec.getLsbD_setWidth, getLsbD_lowMask, BitVec.getLsbD_shiftLeft, BitVec.getLsbD_setWidth,
    getLsbD_pageNumber]
  have va_low (h : va.getLsbD i = true) : i < 32 := BitVec.lt_of_getLsbD h
  have pde_low (h : pde.getLsbD (i - 4) = true) : i - 4 < 32 := BitVec.lt_of_getLsbD h
  refine Bool.eq_iff_iff.mpr ?_
  simp only [Bool.and_eq_true, Bool.or_eq_true, decide_eq_true_eq, Bool.not_eq_true',
    decide_eq_false_iff_not, Bool.and_eq_false_iff]
  constructor
  · rintro (⟨page, -, mask⟩ | offset)
    · have small := pde_low page.2.2.2
      refine .inl ⟨⟨?_, by omega⟩, page.2.2.2⟩
      rcases mask with wide | high
      · omega
      · omega
    · exact .inr ⟨offset.2.2, offset.1.2⟩
  · rintro (⟨inside, page⟩ | offset)
    · have small := pde_low page
      refine .inl ⟨⟨⟨by omega, by omega⟩, by omega, by omega, page⟩, by omega, .inr (by omega)⟩
    · have small := va_low offset.2
      exact .inr ⟨⟨by omega, offset.2⟩, by omega, offset.1⟩

/-- The page number of an entry fits: it has no bits above 32, its bits below the offset of the
source are bits of the address too, and those from there to the offset of the page are its bits. -/
def AddressFits (pde va : BitVec 32) (k bits : ℕ) : Prop :=
  (∀ i, 32 ≤ i → i < 36 → pde.getLsbD (i - 4) = false) ∧
  (∀ i, 12 ≤ i → i < k → pde.getLsbD (i - 4) = true → va.getLsbD i = true) ∧
  ∀ i, k ≤ i → i < bits → pde.getLsbD (i - 4) = va.getLsbD i

theorem composePaddr_eq_iff (pde va : BitVec 32) {k bits : ℕ} (low : 12 ≤ k) (le : k ≤ bits)
    (high : bits ≤ 32) : composePaddr pde va (BitVec.ofNat 64 (2 ^ k)) = physicalAddress pde va bits ↔
      AddressFits pde va k bits := by
  have bit (i : ℕ) : (composePaddr pde va (BitVec.ofNat 64 (2 ^ k))).getLsbD i =
        (physicalAddress pde va bits).getLsbD i ↔
      (32 ≤ i → i < 36 → pde.getLsbD (i - 4) = false) ∧
      (12 ≤ i → i < k → pde.getLsbD (i - 4) = true → va.getLsbD i = true) ∧
      (k ≤ i → i < bits → pde.getLsbD (i - 4) = va.getLsbD i) := by
    rw [getLsbD_composePaddr, getLsbD_physicalAddress pde va (by omega)]
    rw [Bool.eq_iff_iff]
    cases pde.getLsbD (i - 4) <;> cases va.getLsbD i <;>
      simp only [Bool.and_eq_true, Bool.or_eq_true, decide_eq_true_eq, Bool.false_eq_true,
        Bool.true_eq_false, and_false, or_false, false_or, and_true, imp_false, implies_true,
        true_and, not_false_eq_true, not_true_eq_false] <;> omega
  constructor
  · intro same
    have each (i : ℕ) := (bit i).mp (by rw [same])
    exact ⟨fun i => (each i).1, fun i => (each i).2.1, fun i => (each i).2.2⟩
  · rintro ⟨top, under, between⟩
    exact BitVec.eq_of_getLsbD_eq fun i _ => (bit i).mpr ⟨top i, under i, between i⟩

private theorem composePaddr_marked (pde va : BitVec 32) (size : BitVec 64) {pos : ℕ} (low : pos < 8) :
    composePaddr (pde ||| 1#32 <<< pos) va size = composePaddr pde va size := by
  have number : (pde ||| 1#32 <<< pos) &&& ~~~0xFF = pde &&& ~~~0xFF := by
    refine BitVec.eq_of_getLsbD_eq fun j _ => ?_
    rw [getLsbD_pageNumber, getLsbD_pageNumber, BitVec.getLsbD_or,
      Core.SrRegister.getLsbD_one_shiftLeft]
    by_cases apart : j = pos
    · have : ¬ 8 ≤ j := by omega
      simp [this]
    · simp [apart]
  rw [composePaddr, number, composePaddr]

theorem checkAccess_paddr (bus : AhbMemory) (accessIndex pde va : BitVec 32) (size : BitVec 64)
    (isWrite : Bool) :
    (checkAccess bus accessIndex pde va size isWrite).paddr = composePaddr pde va size := by
  unfold checkAccess
  dsimp only
  split_ifs <;> simp only [composePaddr_marked _ _ _ (show 5 < 8 by decide),
    composePaddr_marked _ _ _ (show 6 < 8 by decide)]

private theorem accessError_le (accessIndex perms : BitVec 32) : accessError accessIndex perms ≤ 3 := by
  have entries : (accessTable.all fun row => row.all fun x => x ≤ 3) = true := rfl
  have row : ∀ x ∈ accessTable.getD accessIndex.toNat [], x ≤ 3 := by
    intro x member
    rw [List.getD_eq_getElem?_getD] at member
    cases found : accessTable[accessIndex.toNat]? with
    | none =>
      rw [found] at member
      exact absurd member List.not_mem_nil
    | some row =>
      rw [found] at member
      have all := List.all_eq_true.mp entries row (List.mem_of_getElem? found)
      exact of_decide_eq_true (List.all_eq_true.mp all x member)
  rw [accessError, List.getD_eq_getElem?_getD]
  cases found : (accessTable.getD accessIndex.toNat [])[perms.toNat]? with
  | none => decide
  | some error => exact row error (List.mem_of_getElem? found)

theorem checkAccess_error_iff (bus : AhbMemory) (pde va asi : BitVec 32) (size : BitVec 64)
    (isWrite : Bool) :
    (checkAccess bus (accessIndexOf asi isWrite) pde va size isWrite).errorCode = 0 ↔
      Permitted asi isWrite pde := by
  have bound := accessError_le (accessIndexOf asi isWrite) ((pde >>> 2) &&& 0x7)
  change accessError _ _ <<< 2 = 0 ↔ accessError _ _ = 0
  generalize accessError (accessIndexOf asi isWrite) ((pde >>> 2) &&& 0x7) = error at bound
  constructor
  · intro zero
    have value := congrArg BitVec.toNat zero
    have small : error.toNat ≤ 3 := bound
    rw [toNat_shiftLeft_of_lt (r := 2) (by decide) (by omega)] at value
    have none : error.toNat * 2 ^ 2 = 0 := value
    exact BitVec.eq_of_toNat_eq (show error.toNat = 0 by omega)
  · rintro rfl
    rfl

private theorem pageBits_range (pgsz : Fin 4) (level : ℕ) : 12 ≤ sourcePageBits level ∧
    sourcePageBits level ≤ (widths pgsz).pageBits level ∧ (widths pgsz).pageBits level ≤ 32 := by
  match pgsz, level with
  | 0, 1 | 1, 1 | 2, 1 | 3, 1 => decide
  | 0, 2 | 1, 2 | 2, 2 | 3, 2 => decide
  | 0, 0 | 1, 0 | 2, 0 | 3, 0 => decide
  | 0, _ + 3 | 1, _ + 3 | 2, _ + 3 | 3, _ + 3 =>
    refine ⟨Nat.le_refl 12, ?_, ?_⟩
    · change 12 ≤ 32 - _
      decide
    · exact Nat.sub_le ..

private theorem entryAddress_inj {pde i j : BitVec 32} (hi : i.toNat < 2 ^ 8) (hj : j.toNat < 2 ^ 8)
    (same : entryAddress pde i = entryAddress pde j) : i = j := by
  have shifted : i <<< 2 = j <<< 2 := add_left_cancel same
  have value := congrArg BitVec.toNat shifted
  rw [toNat_shiftLeft_of_lt (r := 8) (by decide) hi, toNat_shiftLeft_of_lt (r := 8) (by decide) hj]
    at value
  exact BitVec.eq_of_toNat_eq (by omega)

private theorem vpnField_lt (vpn : BitVec 32) (start : ℕ) {width : ℕ} (h : width ≤ 8) :
    (vpnField vpn start width).toNat < 2 ^ 8 := by
  rw [vpnField, toNat_and_lowMask _ (by omega)]
  calc _ < 2 ^ width := Nat.mod_lt _ (by positivity)
    _ ≤ 2 ^ 8 := Nat.pow_le_pow_right (by decide) h

/-- The walk reads no descriptor in the context table, or the source takes the indices of the
reference unit and the page it finds, if the access is permitted, has an address that fits. -/
def Conforms (cfg : MmuConfig) (m : Mmu) (mem : Memory 32) (va asi : BitVec 32) (isWrite : Bool) :
    Prop :=
  entryType (readWord mem m.root) = .ptd →
    (cfg.mmupgsz = 3 → va.toNat < 2 ^ 27) ∧
    ((referenceWalk cfg m mem va).fault = none →
      Permitted asi isWrite (referenceWalk cfg m mem va).entry →
      AddressFits (referenceWalk cfg m mem va).entry va
        (sourcePageBits (referenceWalk cfg m mem va).level)
        ((widths cfg.mmupgsz).pageBits (referenceWalk cfg m mem va).level))

/-- A walk of the source reads the entries of its trace and nothing else. -/
theorem getPhysicalAddress_bus (cfg : MmuConfig) (m : Mmu) (b : AhbMemory) (va asi : BitVec 32)
    (isDbg isWrite : Bool) : (getPhysicalAddress cfg m b va asi isDbg isWrite).bus =
      afterReads b isDbg (sourceWalk cfg m b.memory va).trace := by
  rw [getPhysicalAddress_eq]
  cases (sourceWalk cfg m b.memory va).fault with
  | some ft => rfl
  | none => rfl

private theorem afterReads_inj {t u : List (BitVec 32)}
    (same : afterReads b isDbg t = afterReads b isDbg u) : t = u := by
  have transfers := congrArg AhbMemory.transfers same
  have injective : Function.Injective (tableRead isDbg) := fun a c eq =>
    congrArg (fun transfer => transfer.request.address) eq
  exact List.map_injective_iff.mpr injective (List.append_cancel_left transfers)

private theorem first_index_of_trace (table : sparc.kind 0 (readWord b.memory m.root) = .table)
    (same : (sourceWalk cfg m b.memory va).trace = (referenceWalk cfg m b.memory va).trace) :
    cfg.mmupgsz = 3 → va.toNat < 2 ^ 27 := by
  refine (first_index_iff cfg.mmupgsz va).mp ?_
  rw [sourceWalk, referenceWalk, sourceIndices_fields, Widths.indices, walk_table table,
    walk_table table] at same
  dsimp only at same
  have below := (List.cons.inj same).2
  obtain ⟨rest, source⟩ := trace_eq sparc (readWord b.memory) (0 + 1)
    [vpnField (va >>> (32 - (widths cfg.mmupgsz).mVtagWidth)) 6 6,
      vpnField (va >>> (32 - (widths cfg.mmupgsz).mVtagWidth)) 0 6]
    (sparc.child (readWord b.memory m.root)
      (vpnField (va >>> (32 - (widths cfg.mmupgsz).mVtagWidth)) 12 8))
  rw [source] at below
  obtain ⟨rest', reference⟩ := trace_eq sparc (readWord b.memory) (0 + 1)
    [vpnField (va >>> (32 - (widths cfg.mmupgsz).mVtagWidth)) (widths cfg.mmupgsz).mIdx3
        (widths cfg.mmupgsz).mIdx2,
      vpnField (va >>> (32 - (widths cfg.mmupgsz).mVtagWidth)) 0 (widths cfg.mmupgsz).mIdx3]
    (sparc.child (readWord b.memory m.root)
      (vpnField (va >>> (32 - (widths cfg.mmupgsz).mVtagWidth))
        ((widths cfg.mmupgsz).mIdx2 + (widths cfg.mmupgsz).mIdx3) (widths cfg.mmupgsz).mIdx1))
  rw [reference] at below
  have narrow : (widths cfg.mmupgsz).mIdx1 ≤ 8 := by
    match cfg.mmupgsz with
    | 0 | 1 | 2 | 3 => decide
  exact entryAddress_inj (vpnField_lt _ _ (Nat.le_refl 8)) (vpnField_lt _ _ narrow)
    (List.cons.inj below).1

private theorem implements_of_same
    (same : sourceWalk cfg m b.memory va = referenceWalk cfg m b.memory va) :
    Implements cfg m b va asi isDbg isWrite (getPhysicalAddress cfg m b va asi isDbg isWrite) ↔
      ((referenceWalk cfg m b.memory va).fault = none →
        Permitted asi isWrite (referenceWalk cfg m b.memory va).entry →
        AddressFits (referenceWalk cfg m b.memory va).entry va
          (sourcePageBits (referenceWalk cfg m b.memory va).level)
          ((widths cfg.mmupgsz).pageBits (referenceWalk cfg m b.memory va).level)) := by
  rw [getPhysicalAddress_eq, same]
  obtain ⟨low, le, high⟩ := pageBits_range cfg.mmupgsz (referenceWalk cfg m b.memory va).level
  cases fault : (referenceWalk cfg m b.memory va).fault with
  | some ft =>
    refine ⟨fun _ none => absurd none (by simp), fun _ => ⟨rfl, fun ft' eq => ?_, ?_, ?_⟩⟩
    · rw [fault, Option.some.injEq] at eq
      subst eq
      exact ⟨rfl, rfl⟩
    · intro none
      exact absurd (fault.symm.trans none) (by simp)
    · intro none
      exact absurd (fault.symm.trans none) (by simp)
  | none =>
    have address := composePaddr_eq_iff (referenceWalk cfg m b.memory va).entry va low le high
    constructor
    · intro implements _ permitted
      have translated := (implements.translates fault permitted).2
      rw [checkAccess_paddr] at translated
      exact address.mp translated
    · intro fits
      refine ⟨rfl, fun ft eq => absurd (fault.symm.trans eq) (by simp), fun _ permitted => ⟨?_, ?_⟩,
        fun _ denied => ?_⟩
      · exact (checkAccess_error_iff ..).mpr permitted
      · rw [checkAccess_paddr]
        exact address.mpr (fits rfl permitted)
      · exact fun none => denied ((checkAccess_error_iff ..).mp none)

/-- The page walk implements the walk of the reference unit exactly on the accesses that conform. -/
theorem get_physical_address_iff (cfg : MmuConfig) (m : Mmu) (b : AhbMemory) (va asi : BitVec 32)
    (isDbg isWrite : Bool) :
    Implements cfg m b va asi isDbg isWrite (getPhysicalAddress cfg m b va asi isDbg isWrite) ↔
      Conforms cfg m b.memory va asi isWrite := by
  by_cases context : entryType (readWord b.memory m.root) = .ptd
  · have table : sparc.kind 0 (readWord b.memory m.root) = .table := by simp only [sparc, context]
    constructor
    · intro implements _
      have low : cfg.mmupgsz = 3 → va.toNat < 2 ^ 27 :=
        first_index_of_trace table
          (afterReads_inj ((getPhysicalAddress_bus ..).symm.trans implements.reads))
      have same : sourceWalk cfg m b.memory va = referenceWalk cfg m b.memory va := by
        rw [sourceWalk, sourceIndices_eq cfg va low, referenceWalk]
      exact ⟨low, (implements_of_same same).mp implements⟩
    · intro conforms
      have same : sourceWalk cfg m b.memory va = referenceWalk cfg m b.memory va := by
        rw [sourceWalk, sourceIndices_eq cfg va (conforms context).1, referenceWalk]
      exact (implements_of_same same).mpr (conforms context).2
  · refine ⟨fun _ table => absurd table context, fun _ => ?_⟩
    obtain ⟨ft, fault⟩ : ∃ ft, sparc.kind 0 (readWord b.memory m.root) = .fault ft := by
      cases kind : entryType (readWord b.memory m.root) with
      | invalid => exact ⟨1, by simp only [sparc, kind]⟩
      | ptd => exact absurd kind context
      | pte => exact ⟨4, by simp only [sparc, kind, if_true]⟩
      | reserved => exact ⟨4, by simp only [sparc, kind]⟩
    have source : sourceWalk cfg m b.memory va = _ := walk_fault fault
    have reference : referenceWalk cfg m b.memory va = _ := walk_fault fault
    refine (implements_of_same (source.trans reference.symm)).mpr fun none => ?_
    rw [reference] at none
    exact absurd none (by simp)

/-- A unit with 8 kB pages. -/
def smallMmu : MmuConfig := ⟨1, 0, 2, false, ⟨0, fun _ => true⟩, by omega⟩

/-- The registers of a unit that is switched on, with all tables at zero. -/
def enabledMmu : Mmu := ⟨1, 0, 0, 0, 0, OrderedMap.empty, 0, 0⟩

/-- A context table at zero whose first entry points to a level 1 table at 0x100, with one page table
entry that maps the lowest 32 MB to themselves. -/
def identityTables : Memory 32 := fun a => if a = 3 then 0x11 else if a = 0x103 then 0x0e else 0

/-- With 8 kB pages a level 1 entry maps 32 MB, of which the source takes the offset in 16 MB. -/
theorem get_physical_address_fails :
    ¬ ∀ (cfg : MmuConfig) (m : Mmu) (b : AhbMemory) (va asi : BitVec 32) (isDbg isWrite : Bool),
      Implements cfg m b va asi isDbg isWrite (getPhysicalAddress cfg m b va asi isDbg isWrite) := by
  intro claim
  have implements := claim smallMmu enabledMmu ⟨identityTables, [], []⟩ 0x01000000 0xb false false
  have translated := (implements.translates (by decide) (by decide)).2
  exact absurd translated (by decide)

end Source

end Socrocket.MmuCache
