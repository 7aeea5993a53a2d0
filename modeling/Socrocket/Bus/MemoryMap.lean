/- Socrocket/Bus/MemoryMap
   digest: The check of an address map for overlaps, which compares neighbours in a second map. -/

import Socrocket.Base.BitField
import Socrocket.Base.Intervals
import Socrocket.Bus.Decode

set_option autoImplicit false
set_option relaxedAutoImplicit false

namespace Socrocket.Bus

open Socrocket.Base
open Socrocket.Base.BitField
open Socrocket.Base.Intervals

/-- The first and the last address of an area, and the number that its report is about. -/
structure CheckSlave where
  start : BitVec 32
  stop : BitVec 32
  index : BitVec 32
deriving DecidableEq

section Check

variable (shift : ℕ) (index : SlaveInfo → BitVec 32)

def checkSlave (e : Entry) : CheckSlave :=
  let start := (e.1 &&& e.2.mask) <<< shift
  let size := ((~~~e.2.mask &&& 0xfff) + 1) <<< shift
  ⟨start, start + size - 1, index e.2⟩

/-- The areas by their first addresses. -/
def checkTable (m : SlaveMap) : OrderedMap (BitVec 32) CheckSlave (Compare.word 32) :=
  OrderedMap.ofList (Compare.word 32) (m.entries.map fun e =>
    ((checkSlave shift index e).start, checkSlave shift index e))

/-- The reported pairs: each area is compared with the one before, if there is one. -/
def reports (last : CheckSlave) : List CheckSlave → List (CheckSlave × CheckSlave)
  | [] => []
  | cur :: rest =>
    (if last.index ≠ ~~~0 ∧ (cur.start ≤ last.start ∨ cur.start ≤ last.stop) then [(last, cur)]
      else []) ++ reports cur rest

/-- Check the memory map for overlaps. -/
def checkMemMap (m : SlaveMap) : List (CheckSlave × CheckSlave) :=
  reports ⟨0, 0, ~~~0⟩ ((checkTable shift index m).entries.map Prod.snd)

end Check

/-- The number of the device on the AHB. -/
def AHBCtrl.checkIndex (info : SlaveInfo) : BitVec 32 := info.binding >>> 2

/-- Check the memory map of the AHB, in units of a megabyte. -/
def AHBCtrl.checkMemMap (m : SlaveMap) : List (CheckSlave × CheckSlave) :=
  Bus.checkMemMap 20 AHBCtrl.checkIndex m

/-- The bus index of the slave on the APB. -/
def APBCtrl.checkIndex (info : SlaveInfo) : BitVec 32 := info.index

/-- Check the memory map of the APB, in units of four kilobytes. -/
def APBCtrl.checkMemMap (m : SlaveMap) : List (CheckSlave × CheckSlave) :=
  Bus.checkMemMap 12 APBCtrl.checkIndex m

/-- The base and the mask are fields of 12 bits, and the mask has its ones before its zeros. -/
structure Bar.Regular (b : Bar) : Prop where
  base : b.base.toNat < 2 ^ 12
  mask : ∃ k ≤ 12, b.mask.toNat = 2 ^ 12 - 2 ^ k

/-- Every registered area is in the map and in the check, and there is a report exactly when two of
them share an address. -/
structure CheckComplete (shift : ℕ) (index : SlaveInfo → BitVec 32) (bars : List Bar) : Prop where
  mapped : (addressMap bars).entries.Perm (bars.map Bar.entry)
  checked : ((checkTable shift index (addressMap bars)).entries.map Prod.snd).Perm
    (bars.map fun b => checkSlave shift index b.entry)
  reported : checkMemMap shift index (addressMap bars) ≠ [] ↔ ¬ Apart bars

/-- No two areas are registered at one base, or at one base behind the masks. -/
structure BasesDiffer (bars : List Bar) : Prop where
  bases : (bars.map Bar.base).Nodup
  masked : (bars.map fun b => b.base &&& b.mask).Nodup

variable {shift : ℕ} {index : SlaveInfo → BitVec 32} {bars : List Bar}

/-- Nothing is reported exactly when each area ends before the next one starts. -/
theorem reports_eq_nil_iff {last : CheckSlave} {l : List CheckSlave}
    (named : ∀ s ∈ last :: l, s.index ≠ ~~~0)
    (sorted : (last :: l).Pairwise fun s t => s.start.toNat < t.start.toNat) :
    reports last l = [] ↔ (last :: l).IsChain fun s t => s.stop.toNat < t.start.toNat := by
  induction l generalizing last with
  | nil => exact iff_of_true rfl (.singleton last)
  | cons cur l ih =>
    obtain ⟨first, rest⟩ := List.forall_mem_cons.mp named
    obtain ⟨below, later⟩ := List.pairwise_cons.mp sorted
    have order := below cur (List.mem_cons_self ..)
    rw [reports, List.append_eq_nil_iff, ih rest later, List.isChain_cons_cons]
    refine and_congr_left fun _ => ?_
    have apart : ¬cur.start ≤ last.start := BitVec.not_le.mpr (BitVec.lt_def.mpr order)
    by_cases reaches : cur.start ≤ last.stop
    · rw [if_pos ⟨first, .inr reaches⟩]
      exact iff_of_false (List.cons_ne_nil _ _) (Nat.not_lt.mpr (BitVec.le_def.mp reaches))
    · rw [if_neg fun h => h.2.elim apart reaches]
      exact iff_of_true rfl (BitVec.lt_def.mp (BitVec.not_le.mp reaches))

theorem checkTable_sorted (shift : ℕ) (index : SlaveInfo → BitVec 32) (m : SlaveMap) :
    ((checkTable shift index m).entries.map Prod.snd).Pairwise
    fun s t => s.start.toNat < t.start.toNat := by
  refine List.pairwise_map.mpr ((checkTable shift index m).sorted.imp_of_mem ?_)
  intro a b first second below
  obtain ⟨e, -, rfl⟩ := List.mem_map.mp (OrderedMap.mem_of_mem_ofList first)
  obtain ⟨f, -, rfl⟩ := List.mem_map.mp (OrderedMap.mem_of_mem_ofList second)
  exact BitVec.lt_def.mp below

theorem addressMap_eq (bars : List Bar) :
    addressMap bars = OrderedMap.ofList (Compare.word 32) (bars.map Bar.entry) := by
  rw [addressMap, OrderedMap.ofList, List.foldl_map]
  rfl

section Regular

variable {b c : Bar} {k : ℕ}

theorem covers_iff (small : b.base.toNat < 2 ^ 12) (le : k ≤ 12)
    (mask : b.mask.toNat = 2 ^ 12 - 2 ^ k) (addr : BitVec 32) :
    Covers b.entry addr ↔ addr.toNat % 2 ^ 12 / 2 ^ k = b.base.toNat / 2 ^ k := by
  have bits : Covers b.entry addr ↔ addr &&& b.mask = b.base &&& b.mask :=
    xor_and_eq_zero_iff addr b.base b.mask
  rw [bits, ← BitVec.toNat_inj, toNat_and_pageMask addr le mask, toNat_and_pageMask b.base le mask,
    Nat.mod_eq_of_lt small]
  exact Nat.mul_left_inj (Nat.two_pow_pos k).ne'

private theorem page_fits {n : ℕ} (small : n < 2 ^ 12) (le : k ≤ 12) :
    n / 2 ^ k * 2 ^ k + 2 ^ k ≤ 2 ^ 12 := by
  have pages : 2 ^ 12 = 2 ^ (12 - k) * 2 ^ k := by rw [← Nat.pow_add, Nat.sub_add_cancel le]
  have inside : n / 2 ^ k < 2 ^ (12 - k) := by
    rw [Nat.div_lt_iff_lt_mul (Nat.two_pow_pos k), ← pages]
    exact small
  rw [pages, ← Nat.succ_mul]
  exact Nat.mul_le_mul_right _ inside

theorem checkSlave_span (index : SlaveInfo → BitVec 32) (fits : shift ≤ 20)
    (small : b.base.toNat < 2 ^ 12) (le : k ≤ 12)
    (mask : b.mask.toNat = 2 ^ 12 - 2 ^ k) :
    (checkSlave shift index b.entry).start.toNat = b.base.toNat / 2 ^ k * (2 ^ k * 2 ^ shift) ∧
      (checkSlave shift index b.entry).stop.toNat =
        b.base.toNat / 2 ^ k * (2 ^ k * 2 ^ shift) + 2 ^ k * 2 ^ shift - 1 := by
  have page : (b.base &&& b.mask).toNat = b.base.toNat / 2 ^ k * 2 ^ k := by
    rw [toNat_and_pageMask b.base le mask, Nat.mod_eq_of_lt small]
  have whole := page_fits small le
  have one : 0 < 2 ^ k := Nat.two_pow_pos k
  have bytes : (b.base.toNat / 2 ^ k * 2 ^ k + 2 ^ k) * 2 ^ shift ≤ 2 ^ 32 := by
    calc (b.base.toNat / 2 ^ k * 2 ^ k + 2 ^ k) * 2 ^ shift ≤ 2 ^ 12 * 2 ^ 20 :=
          Nat.mul_le_mul whole (Nat.pow_le_pow_right (by decide) fits)
      _ = 2 ^ 32 := by norm_num
  have unit : 0 < 2 ^ k * 2 ^ shift := Nat.mul_pos one (Nat.two_pow_pos shift)
  rw [Nat.add_mul, Nat.mul_assoc] at bytes
  have start : ((b.base &&& b.mask) <<< shift).toNat =
      b.base.toNat / 2 ^ k * (2 ^ k * 2 ^ shift) := by
    rw [BitVec.toNat_shiftLeft, Nat.shiftLeft_eq, page, Nat.mul_assoc, Nat.mod_eq_of_lt (by omega)]
  have pages : (~~~b.mask &&& 0xfff).toNat = 2 ^ k - 1 := by
    have low : (~~~b.mask &&& 0xfff).toNat = (~~~b.mask).toNat % 2 ^ 12 :=
      toNat_and_lowMask (k := 12) (~~~b.mask) (by decide)
    rw [low, BitVec.toNat_not, mask]
    omega
  have size : (((~~~b.mask &&& 0xfff) + 1) <<< shift).toNat = 2 ^ k * 2 ^ shift % 2 ^ 32 := by
    have next : ((~~~b.mask &&& 0xfff) + 1).toNat = 2 ^ k := by
      rw [BitVec.toNat_add, pages]
      change (2 ^ k - 1 + 1) % 2 ^ 32 = 2 ^ k
      omega
    rw [BitVec.toNat_shiftLeft, Nat.shiftLeft_eq, next]
  refine ⟨start, ?_⟩
  change ((b.base &&& b.mask) <<< shift + ((~~~b.mask &&& 0xfff) + 1) <<< shift - 1).toNat = _
  rw [BitVec.toNat_sub, BitVec.toNat_add, start, size]
  change (2 ^ 32 - 1 + _) % 2 ^ 32 = _
  omega

theorem checkSlave_holds_iff (fits : shift ≤ 20) (regular : b.Regular) (x : ℕ) :
    ((checkSlave shift index b.entry).start.toNat ≤ x ∧
        x ≤ (checkSlave shift index b.entry).stop.toNat) ↔
      x / 2 ^ shift < 2 ^ 12 ∧ Covers b.entry (BitVec.ofNat 32 (x / 2 ^ shift)) := by
  obtain ⟨small, k, le, mask⟩ := regular
  obtain ⟨start, stop⟩ := checkSlave_span index fits small le mask
  have unit : 0 < 2 ^ k * 2 ^ shift := Nat.mul_pos (Nat.two_pow_pos k) (Nat.two_pow_pos shift)
  have row : ((checkSlave shift index b.entry).start.toNat ≤ x ∧
      x ≤ (checkSlave shift index b.entry).stop.toNat) ↔
      x / 2 ^ shift / 2 ^ k = b.base.toNat / 2 ^ k := by
    rw [start, stop, Nat.div_div_eq_div_mul, Nat.mul_comm (2 ^ shift), Nat.div_eq_iff unit]
  have whole := page_fits small le
  have word (inside : x / 2 ^ shift < 2 ^ 12) : x / 2 ^ shift % 2 ^ 32 % 2 ^ 12 = x / 2 ^ shift := by
    rw [Nat.mod_mod_of_dvd _ (Nat.pow_dvd_pow 2 (by decide)), Nat.mod_eq_of_lt inside]
  rw [row, covers_iff small le mask, BitVec.toNat_ofNat]
  constructor
  · intro page
    have inside : x / 2 ^ shift < 2 ^ 12 := by
      have below := Nat.lt_div_mul_add (Nat.two_pow_pos k) (a := x / 2 ^ shift)
      rw [page] at below
      exact Nat.lt_of_lt_of_le below whole
    exact ⟨inside, by rw [word inside, page]⟩
  · rintro ⟨inside, page⟩
    rw [word inside] at page
    exact page

/-- The rows of two areas meet exactly when the areas cover a common address. -/
theorem meet_iff_covers (fits : shift ≤ 20) (first : b.Regular) (second : c.Regular) :
    Meet (fun s : CheckSlave => s.start.toNat) (fun s => s.stop.toNat)
        (checkSlave shift index b.entry) (checkSlave shift index c.entry) ↔
      ∃ addr, Covers b.entry addr ∧ Covers c.entry addr := by
  constructor
  · rintro ⟨x, inb, inc⟩
    exact ⟨_, ((checkSlave_holds_iff fits first x).mp inb).2,
      ((checkSlave_holds_iff fits second x).mp inc).2⟩
  · rintro ⟨addr, covb, covc⟩
    have low : addr.toNat % 2 ^ 12 < 2 ^ 12 := Nat.mod_lt _ (by decide)
    have place : addr.toNat % 2 ^ 12 * 2 ^ shift / 2 ^ shift = addr.toNat % 2 ^ 12 :=
      Nat.mul_div_cancel _ (Nat.two_pow_pos shift)
    have covers {d : Bar} (regular : d.Regular) (covered : Covers d.entry addr) :
        Covers d.entry (BitVec.ofNat 32 (addr.toNat % 2 ^ 12)) := by
      obtain ⟨small, k, le, mask⟩ := regular
      rw [covers_iff small le mask] at covered ⊢
      rw [BitVec.toNat_ofNat, Nat.mod_eq_of_lt (by omega : addr.toNat % 2 ^ 12 < 2 ^ 32), Nat.mod_mod]
      exact covered
    refine ⟨addr.toNat % 2 ^ 12 * 2 ^ shift, (checkSlave_holds_iff fits first _).mpr ?_,
      (checkSlave_holds_iff fits second _).mpr ?_⟩
    · rw [place]
      exact ⟨low, covers first covb⟩
    · rw [place]
      exact ⟨low, covers second covc⟩

end Regular

theorem nodup_starts_iff (index : SlaveInfo → BitVec 32) (fits : shift ≤ 20)
    (regular : ∀ b ∈ bars, b.Regular) :
    (bars.map fun b => (checkSlave shift index b.entry).start).Nodup ↔
      (bars.map fun b => b.base &&& b.mask).Nodup := by
  have shifted : (bars.map fun b => (checkSlave shift index b.entry).start) =
      (bars.map fun b => b.base &&& b.mask).map fun page : BitVec 32 => page <<< shift := by
    rw [List.map_map]
    rfl
  rw [shifted]
  refine ⟨List.Nodup.of_map _, fun distinct => distinct.map_on ?_⟩
  intro x first y second same
  obtain ⟨b, memb, rfl⟩ := List.mem_map.mp first
  obtain ⟨c, memc, rfl⟩ := List.mem_map.mp second
  have value {d : Bar} (member : d ∈ bars) : ((d.base &&& d.mask) <<< shift).toNat =
      (d.base &&& d.mask).toNat * 2 ^ shift := by
    have small : (d.base &&& d.mask).toNat < 2 ^ 12 := by
      rw [BitVec.toNat_and]
      exact Nat.lt_of_le_of_lt Nat.and_le_left (regular d member).base
    exact toNat_shiftLeft_of_lt (by omega) small
  have equal := congrArg BitVec.toNat same
  rw [value memb, value memc] at equal
  exact BitVec.eq_of_toNat_eq (Nat.eq_of_mul_eq_mul_right (Nat.two_pow_pos shift) equal)

theorem nodup_checkTable (m : SlaveMap) :
    (((checkTable shift index m).entries.map Prod.snd).map CheckSlave.start).Nodup :=
  List.pairwise_map.mpr ((checkTable_sorted shift index m).imp fun below same => by
    rw [same] at below
    exact Nat.lt_irrefl _ below)

theorem dropped_iff (fits : shift ≤ 20) (regular : ∀ b ∈ bars, b.Regular) :
    ((addressMap bars).entries.Perm (bars.map Bar.entry) ∧
      ((checkTable shift index (addressMap bars)).entries.map Prod.snd).Perm
        (bars.map fun b => checkSlave shift index b.entry)) ↔ BasesDiffer bars := by
  have bases : (addressMap bars).entries.Perm (bars.map Bar.entry) ↔ (bars.map Bar.base).Nodup := by
    rw [addressMap_eq, OrderedMap.perm_ofList_iff, List.map_map]
    rfl
  rw [bases]
  constructor
  · rintro ⟨distinct, perm⟩
    refine ⟨distinct, (nodup_starts_iff index fits regular).mp ?_⟩
    have starts := (perm.map CheckSlave.start).nodup_iff.mp (nodup_checkTable _)
    rw [List.map_map] at starts
    exact starts
  · rintro ⟨distinct, masked⟩
    have mapped := bases.mpr distinct
    have starts := (nodup_starts_iff index fits regular).mpr masked
    refine ⟨distinct, ?_⟩
    have rows := mapped.map fun e => ((checkSlave shift index e).start, checkSlave shift index e)
    rw [List.map_map] at rows
    have kept := (OrderedMap.perm_ofList_iff (c := Compare.word 32) _).mpr
      ((rows.map Prod.fst).nodup_iff.mpr (by rw [List.map_map]; exact starts))
    have all := (kept.trans rows).map Prod.snd
    rw [List.map_map] at all
    exact all

theorem reported_iff (fits : shift ≤ 20) (regular : ∀ b ∈ bars, b.Regular)
    (named : ∀ b ∈ bars, index b.info ≠ ~~~0)
    (checked : ((checkTable shift index (addressMap bars)).entries.map Prod.snd).Perm
      (bars.map fun b => checkSlave shift index b.entry)) :
    checkMemMap shift index (addressMap bars) ≠ [] ↔ ¬ Apart bars := by
  have row {s : CheckSlave}
      (member : s ∈ (checkTable shift index (addressMap bars)).entries.map Prod.snd) :
      ∃ b ∈ bars, checkSlave shift index b.entry = s := List.mem_map.mp (checked.mem_iff.mp member)
  have holds : ∀ s ∈ (checkTable shift index (addressMap bars)).entries.map Prod.snd,
      s.start.toNat ≤ s.stop.toNat := by
    intro s member
    obtain ⟨b, area, rfl⟩ := row member
    obtain ⟨small, k, le, mask⟩ := regular b area
    obtain ⟨start, stop⟩ := checkSlave_span index fits small le mask
    have unit : 0 < 2 ^ k * 2 ^ shift := Nat.mul_pos (Nat.two_pow_pos k) (Nat.two_pow_pos shift)
    omega
  have indexed : ∀ s ∈ (checkTable shift index (addressMap bars)).entries.map Prod.snd,
      s.index ≠ ~~~0 := by
    intro s member
    obtain ⟨b, area, rfl⟩ := row member
    exact named b area
  have sorted := checkTable_sorted shift index (addressMap bars)
  have apart : ((checkTable shift index (addressMap bars)).entries.map Prod.snd).Pairwise
      (fun s t => ¬ Meet (fun s : CheckSlave => s.start.toNat) (fun s => s.stop.toNat) s t) ↔
      Apart bars := by
    rw [checked.pairwise_iff fun h meet => h (meet_comm.mp meet), List.pairwise_map, Apart]
    refine ⟨fun h => h.imp_of_mem ?_, fun h => h.imp_of_mem ?_⟩
    · intro b c first second none addr both
      exact none ((meet_iff_covers fits (regular b first) (regular c second)).mpr ⟨addr, both⟩)
    · intro b c first second none meet
      obtain ⟨addr, both⟩ := (meet_iff_covers fits (regular b first) (regular c second)).mp meet
      exact none addr both
  rw [not_iff_not, ← apart, ← chain_iff_pairwise (sorted.imp Nat.le_of_lt) holds, checkMemMap]
  cases rows : (checkTable shift index (addressMap bars)).entries.map Prod.snd with
  | nil => exact iff_of_true rfl .nil
  | cons first rest =>
    rw [rows] at sorted indexed
    have start : reports ⟨0, 0, ~~~0⟩ (first :: rest) = reports first rest := by
      rw [reports, if_neg fun h => h.1 rfl, List.nil_append]
    rw [start, reports_eq_nil_iff indexed sorted]

/-- The check of a memory map is complete exactly when no two areas are registered at one base, or at
one base behind their masks: one of them is dropped otherwise, and the overlap with it. -/
theorem check_complete_iff (regular : ∀ b ∈ bars, b.Regular)
    (indexed : ∀ b ∈ bars, b.index.toNat < 16) :
    (CheckComplete 20 AHBCtrl.checkIndex bars ↔ BasesDiffer bars) ∧
      (CheckComplete 12 APBCtrl.checkIndex bars ↔ BasesDiffer bars) := by
  have each {shift : ℕ} {index : SlaveInfo → BitVec 32} (fits : shift ≤ 20)
      (named : ∀ b ∈ bars, index b.info ≠ ~~~0) :
      CheckComplete shift index bars ↔ BasesDiffer bars := by
    constructor
    · exact fun complete => (dropped_iff fits regular).mp ⟨complete.mapped, complete.checked⟩
    · intro differ
      obtain ⟨mapped, checked⟩ := (dropped_iff fits regular).mpr differ
      exact ⟨mapped, checked, reported_iff fits regular named checked⟩
  refine ⟨each (by decide) fun b _ => ?_, each (by decide) fun b member => ?_⟩
  · intro ones
    have top := congrArg (BitVec.getLsbD · 31) ones
    simp [AHBCtrl.checkIndex, Bar.info] at top
  · intro ones
    have small := indexed b member
    change b.index = ~~~0 at ones
    rw [ones] at small
    exact absurd small (by decide)

private theorem twoBars_regular : ∀ b ∈ twoBars, b.Regular := by
  intro b member
  rcases List.mem_cons.mp member with rfl | tail
  · exact ⟨by decide, 9, by decide, rfl⟩
  · obtain rfl := List.mem_singleton.mp tail
    exact ⟨by decide, 10, by decide, rfl⟩

/-- The check of a PROM and a RAM. -/
theorem check_complete_twoBars :
    CheckComplete 20 AHBCtrl.checkIndex twoBars ∧ CheckComplete 12 APBCtrl.checkIndex twoBars :=
  have both := check_complete_iff twoBars_regular (by decide)
  have differ : BasesDiffer twoBars := ⟨by decide, by decide⟩
  ⟨both.1.mpr differ, both.2.mpr differ⟩

/-- Two slaves with a megabyte at the same base. -/
def sameBase : List Bar := [⟨0, 0, 0x400, 0xfff⟩, ⟨4, 1, 0x400, 0xfff⟩]

private theorem sameBase_regular : ∀ b ∈ sameBase, b.Regular := by
  intro b member
  rcases List.mem_cons.mp member with rfl | tail
  · exact ⟨by decide, 0, by decide, rfl⟩
  · obtain rfl := List.mem_singleton.mp tail
    exact ⟨by decide, 0, by decide, rfl⟩

/-- The second slave is not in the map, and there is no report. -/
theorem check_drops_same_base : ¬ ∀ bars : List Bar, (∀ b ∈ bars, b.Regular) →
    (∀ b ∈ bars, b.index.toNat < 16) →
    CheckComplete 20 AHBCtrl.checkIndex bars ∧ CheckComplete 12 APBCtrl.checkIndex bars := by
  intro claim
  obtain ⟨complete, -⟩ := claim sameBase sameBase_regular (by decide)
  have silent : checkMemMap 20 AHBCtrl.checkIndex (addressMap sameBase) = [] := by decide
  refine complete.reported.mpr (fun apart => ?_) silent
  have first := (List.pairwise_cons.mp apart).1 ⟨4, 1, 0x400, 0xfff⟩ (List.mem_singleton_self _)
  exact first 0x400 ⟨by decide, by decide⟩

end Socrocket.Bus
