/- Socrocket/Bus/Decode
   digest: The decoders of the two bus controllers answer for the nearest lower base only. -/

import Socrocket.Base.Run
import Socrocket.Bus.SlaveMap

set_option autoImplicit false
set_option relaxedAutoImplicit false

namespace Socrocket.Bus

open Socrocket.Base
open Socrocket.Base.Run

/-- The decoder state of a controller with its counters. -/
structure Decoder where
  slaveMap : SlaveMap
  slaveMapCache : Entry
  totalTransactions : BitVec 64
  rightTransactions : BitVec 64

/-- The decoder after construction. -/
def Decoder.init : Decoder := ⟨OrderedMap.empty, bogus, 0, 0⟩

/-- Create a decoder entry. A base that has one already keeps it. -/
def Decoder.setAddressMap (d : Decoder) (binding index base mask : BitVec 32) : Decoder :=
  { d with slaveMap := d.slaveMap.insert base ⟨index, mask, binding⟩ }

/-- Search for a segment address and return the number of the device found, or -1. -/
def Decoder.find (device : BitVec 32 → BitVec 32) (addr : BitVec 32) (d : Decoder) :
    Option (ℤ × Decoder) :=
  (lookup d.slaveMap d.slaveMapCache addr).map fun
    | (some it, cache) => ((device it.2.binding).toInt, { d with
        slaveMapCache := cache
        rightTransactions := d.rightTransactions + 1 })
    | (none, cache) => (-1, { d with slaveMapCache := cache })

namespace AHBCtrl

/-- The 12 bit segment address. -/
def segment (address : BitVec 32) : BitVec 32 := address >>> 20

/-- There are up to four areas for each device. Only the device is returned. -/
def device (binding : BitVec 32) : BitVec 32 := binding >>> 2

/-- Find a slave by address. -/
def getIndex (d : Decoder) (address : BitVec 32) : Option (ℤ × Decoder) :=
  { d with totalTransactions := d.totalTransactions + 1 }.find device (segment address)

end AHBCtrl

namespace APBCtrl

/-- The 12 bit segment address. -/
def segment (address : BitVec 32) : BitVec 32 := (address >>> 8) &&& 0xfff

/-- A device has one area. -/
def device (binding : BitVec 32) : BitVec 32 := binding

/-- Find a slave by address. -/
def getIndex (d : Decoder) (address : BitVec 32) : Option (ℤ × Decoder) :=
  d.find device (segment address)

end APBCtrl

/-- The decoder after the address map was set up. -/
def Decoder.build (bars : List Bar) : Decoder :=
  bars.foldl (fun d b => d.setAddressMap b.binding b.index b.base b.mask) Decoder.init

/-- The number of the device whose area covers the address, or -1 when there is none. -/
def Decoded (device : BitVec 32 → BitVec 32) (bars : List Bar) (addr : BitVec 32) (index : ℤ) : Prop :=
  (∃ b ∈ bars, Covers b.entry addr ∧ index = (device b.binding).toInt) ∨
    ((∀ b ∈ bars, ¬ Covers b.entry addr) ∧ index = -1)

variable {bars : List Bar}

theorem build_registers (bars : List Bar) :
    (Decoder.build bars).slaveMap = addressMap bars ∧ (Decoder.build bars).slaveMapCache = bogus := by
  have fold (d : Decoder) :
      (bars.foldl (fun d b => d.setAddressMap b.binding b.index b.base b.mask) d).slaveMap =
        bars.foldl (fun m b => m.insert b.base b.info) d.slaveMap ∧
      (bars.foldl (fun d b => d.setAddressMap b.binding b.index b.base b.mask) d).slaveMapCache =
        d.slaveMapCache := by
    induction bars generalizing d with
    | nil => exact ⟨rfl, rfl⟩
    | cons b bars ih => exact ih _
  exact fold Decoder.init

/-- The map is fixed and the cache holds one of its areas, or nothing yet. -/
structure Consistent (bars : List Bar) (d : Decoder) : Prop where
  slaveMap : d.slaveMap = addressMap bars
  cached : Cached bars d.slaveMapCache

theorem consistent_build (bars : List Bar) : Consistent bars (Decoder.build bars) :=
  ⟨(build_registers bars).1, .inl (build_registers bars).2⟩

theorem consistent_find {device : BitVec 32 → BitVec 32} {addr : BitVec 32} {d d' : Decoder}
    {index : ℤ} (apart : Apart bars) (consistent : Consistent bars d)
    (result : d.find device addr = some (index, d')) : Consistent bars d' := by
  rw [Decoder.find, consistent.slaveMap, Option.map_eq_some_iff] at result
  obtain ⟨⟨found, cache⟩, answer, eq⟩ := result
  have cached := cached_lookup apart consistent.cached answer
  cases found with
  | some it =>
    obtain ⟨-, rfl⟩ := Prod.mk.inj eq
    exact ⟨rfl, cached⟩
  | none =>
    obtain ⟨-, rfl⟩ := Prod.mk.inj eq
    exact ⟨rfl, cached⟩

/-- A device number is right exactly when the search below it answers. -/
theorem find_decoded_iff {device : BitVec 32 → BitVec 32} {addr : BitVec 32} {d : Decoder}
    (apart : Apart bars) (named : ∀ b ∈ bars, (device b.binding).toInt ≠ -1)
    (consistent : Consistent bars d) (small : addr.toNat < 0x1000) :
    (∃ index d', d.find device addr = some (index, d') ∧ Decoded device bars addr index) ↔
      Findable bars d.slaveMapCache addr := by
  rw [← lookup_answers_iff apart consistent.cached small, Decoder.find, consistent.slaveMap]
  constructor
  · rintro ⟨index, d', result, decoded⟩
    obtain ⟨⟨found, cache⟩, answer, eq⟩ := Option.map_eq_some_iff.mp result
    refine ⟨found, cache, answer, ?_⟩
    cases found with
    | some it => exact lookup_found apart consistent.cached small answer
    | none =>
      obtain ⟨rfl, -⟩ := Prod.mk.inj eq
      rcases decoded with ⟨b, member, -, is⟩ | ⟨none, -⟩
      · exact absurd is.symm (named b member)
      · exact .inr ⟨none, rfl⟩
  · rintro ⟨found, cache, answer, ⟨b, member, covered, rfl⟩ | ⟨none, rfl⟩⟩
    · exact ⟨_, _, Option.map_eq_some_iff.mpr ⟨_, answer, rfl⟩, .inl ⟨b, member, covered, rfl⟩⟩
    · exact ⟨_, _, Option.map_eq_some_iff.mpr ⟨_, answer, rfl⟩, .inr ⟨none, rfl⟩⟩

private theorem ahb_segment_small (address : BitVec 32) :
    (AHBCtrl.segment address).toNat < 0x1000 := by
  rw [AHBCtrl.segment, BitVec.toNat_ushiftRight, Nat.shiftRight_eq_div_pow]
  have := address.isLt
  omega

theorem apb_segment_small (address : BitVec 32) :
    (APBCtrl.segment address).toNat < 0x1000 := by
  rw [APBCtrl.segment, BitVec.toNat_and]
  exact Nat.lt_of_le_of_lt Nat.and_le_right (by decide)

private theorem ahb_device_named (binding : BitVec 32) : (AHBCtrl.device binding).toInt ≠ -1 := by
  have small : (binding >>> 2).toNat < 2 ^ 30 := by
    rw [BitVec.toNat_ushiftRight, Nat.shiftRight_eq_div_pow]
    have := binding.isLt
    omega
  rw [AHBCtrl.device, BitVec.toInt_eq_toNat_of_lt (by omega)]
  omega

private theorem apb_device_named {binding : BitVec 32} (named : binding ≠ ~~~0) :
    (APBCtrl.device binding).toInt ≠ -1 := by
  intro minus
  apply named
  apply BitVec.eq_of_toInt_eq
  exact minus

/-- A lookup as a step of the controller. -/
def lookupStep (getIndex : Decoder → BitVec 32 → Option (ℤ × Decoder)) (d : Decoder)
    (address : BitVec 32) : Option Decoder :=
  (getIndex d address).map Prod.snd

private theorem consistent_run {getIndex : Decoder → BitVec 32 → Option (ℤ × Decoder)}
    (keep : ∀ d address index d', Consistent bars d → getIndex d address = some (index, d') →
      Consistent bars d') {earlier : List (BitVec 32)} {d : Decoder}
    (reached : run (lookupStep getIndex) (Decoder.build bars) earlier = some d) :
    Consistent bars d := by
  refine run_preserves (fun d address d' consistent _ next => ?_) (consistent_build bars)
    (along_of_forall _ fun _ _ => trivial :
      Along (lookupStep getIndex) (fun _ _ => True) (Decoder.build bars) earlier) reached
  obtain ⟨⟨index, d''⟩, result, rfl⟩ := Option.map_eq_some_iff.mp next
  exact keep d address index d'' consistent result

/-- After any lookups, the decoders of the AHB and of the APB return the device that covers an
address, or -1 when there is none, exactly when the address is findable. -/
theorem get_index_iff (apart : Apart bars) (named : ∀ b ∈ bars, b.binding ≠ ~~~0) :
    (∀ (earlier : List (BitVec 32)) (d : Decoder) (address : BitVec 32),
      run (lookupStep AHBCtrl.getIndex) (Decoder.build bars) earlier = some d →
      ((∃ index d', AHBCtrl.getIndex d address = some (index, d') ∧
          Decoded AHBCtrl.device bars (AHBCtrl.segment address) index) ↔
        Findable bars d.slaveMapCache (AHBCtrl.segment address))) ∧
    (∀ (earlier : List (BitVec 32)) (d : Decoder) (address : BitVec 32),
      run (lookupStep APBCtrl.getIndex) (Decoder.build bars) earlier = some d →
      ((∃ index d', APBCtrl.getIndex d address = some (index, d') ∧
          Decoded APBCtrl.device bars (APBCtrl.segment address) index) ↔
        Findable bars d.slaveMapCache (APBCtrl.segment address))) := by
  constructor
  · intro earlier d address reached
    have consistent : Consistent bars d := consistent_run (fun d address index d' before result =>
      consistent_find apart (d := { d with totalTransactions := d.totalTransactions + 1 })
        ⟨before.slaveMap, before.cached⟩ result) reached
    exact find_decoded_iff (d := { d with totalTransactions := d.totalTransactions + 1 }) apart
      (fun b _ => ahb_device_named b.binding) ⟨consistent.slaveMap, consistent.cached⟩
      (ahb_segment_small address)
  · intro earlier d address reached
    have consistent : Consistent bars d := consistent_run (fun d address index d' before result =>
      consistent_find apart before result) reached
    exact find_decoded_iff apart (fun b member => apb_device_named (named b member)) consistent
      (apb_segment_small address)

/-- Two areas: a PROM at the bottom and a RAM at 0x40000000. -/
def twoBars : List Bar := [⟨0, 0, 0x000, 0xe00⟩, ⟨4, 1, 0x400, 0xc00⟩]

private theorem twoBars_apart : Apart twoBars := by
  refine List.pairwise_cons.mpr ⟨fun c member addr both => ?_, List.pairwise_singleton _ _⟩
  obtain rfl := List.mem_singleton.mp member
  have low : (addr ^^^ 0#32) &&& 0xe00#32 = 0#32 := both.1
  have high : (addr ^^^ 0x400#32) &&& 0xc00#32 = 0#32 := both.2
  have clear := congrArg (BitVec.getLsbD · 10) low
  have set := congrArg (BitVec.getLsbD · 10) high
  simp at clear set
  exact absurd clear (by simp [set])

/-- Between the two areas nothing is mapped, after an access to the second one. -/
theorem get_index_twoBars :
    ∃ d, run (lookupStep AHBCtrl.getIndex) (Decoder.build twoBars) [0x40000000] = some d ∧
      ∃ index d', AHBCtrl.getIndex d 0x20000000 = some (index, d') ∧
        Decoded AHBCtrl.device twoBars 0x200 index := by
  have found := (get_index_iff twoBars_apart (by decide)).1 [0x40000000] _ 0x20000000 rfl
  exact ⟨_, rfl, found.mpr (by decide)⟩

/-- A RAM at 0x40000000 alone: address zero is below the first base. -/
theorem get_index_below_first :
    ¬ ∀ (bars : List Bar) (address : BitVec 32), Apart bars →
      ∃ index d', AHBCtrl.getIndex (Decoder.build bars) address = some (index, d') ∧
        Decoded AHBCtrl.device bars (AHBCtrl.segment address) index := by
  intro claim
  obtain ⟨index, d', result, -⟩ :=
    claim [⟨4, 1, 0x400, 0xc00⟩] 0 (List.pairwise_singleton _ _)
  have outside : AHBCtrl.getIndex (Decoder.build [⟨4, 1, 0x400, 0xc00⟩]) 0 = none := rfl
  rw [outside] at result
  exact absurd result nofun

end Socrocket.Bus
