/- Socrocket/Bus/PlugAndPlay
   digest: The table of the devices on the AHB, filled by bus index and read word by word. -/

import Socrocket.Base.BitField
import Socrocket.Bus.Blocking

set_option autoImplicit false
set_option relaxedAutoImplicit false

namespace Socrocket.Bus.AHBCtrl

open Socrocket.Base.BitField

/-- A device at one of the sockets: its bus index and the eight words of its record. -/
structure Device where
  hindex : ℕ
  info : ℕ → BitVec 32

/-- Map the information of a device into the table, if there is one. -/
def mapDevice (fpnpen : Bool) (infos : ℕ → Option (ℕ → BitVec 32)) (d : Device) :
    ℕ → Option (ℕ → BitVec 32) :=
  if fpnpen then Function.update infos d.hindex (some d.info) else infos

/-- The device information after all sockets, in their order. -/
def mapDevices (fpnpen : Bool) (devices : List Device) : ℕ → Option (ℕ → BitVec 32) :=
  devices.foldl (mapDevice fpnpen) fun _ => none

/-- What the start of the simulation collects about the bound devices. -/
def startOfSimulation (g : Generics) (slaves masters : List Device) : Option (Generics × Pnp) :=
  if slaves.length ≤ 16 ∧ masters.length ≤ 16 ∧ (∀ d ∈ slaves, d.hindex < 16) ∧
      (∀ d ∈ masters, d.hindex < 16) then
    some ({ g with numOfMasterBindings := masters.length },
      ⟨slaves.length, mapDevices g.fpnpen slaves, mapDevices g.fpnpen masters⟩)
  else none

/-- The first address of the configuration area. -/
def pnpBase (g : Generics) : BitVec 32 :=
  (g.ioaddr <<< 20 ||| g.cfgaddr <<< 8) &&& (g.iomask <<< 20 ||| g.cfgmask <<< 8)

/-- The word of the build, which every area has. -/
def BuildWord (address : BitVec 32) : Prop := 0xfffffff0 ≤ address ∧ address ≤ 0xfffffff3

instance (address : BitVec 32) : Decidable (BuildWord address) :=
  inferInstanceAs (Decidable (_ ∧ _))

/-- A place in the table: the slaves are in the upper half, with 32 bytes for a record. -/
structure Place where
  upper : Bool
  number : ℕ
  word : ℕ

/-- The place of an offset from the start of the area. -/
def place (offset : ℕ) : Place :=
  { upper := 0x800 ≤ offset
    number := (if 0x800 ≤ offset then offset - 0x800 else offset) / 32
    word := offset / 4 % 8 }

def Place.devices (p : Place) (slaves masters : List Device) : List Device :=
  if p.upper then slaves else masters

variable {g g' : Generics} {pnp : Pnp} {slaves masters : List Device} {address : BitVec 32}

private theorem record_place (addr : BitVec 32) :
    ((addr >>> 2) >>> 3).toNat = addr.toNat / 32 ∧
      ((addr >>> 2) &&& 0x7).toNat = addr.toNat / 4 % 8 := by
  have low : ((addr >>> 2) &&& 0x7).toNat = (addr >>> 2).toNat % 2 ^ 3 :=
    toNat_and_lowMask (k := 3) (addr >>> 2) (by decide)
  refine ⟨?_, ?_⟩
  · rw [toNat_shiftRight, toNat_shiftRight]
    omega
  · rw [low, toNat_shiftRight]
    rfl

theorem getPNPReg_eq (plain : ¬ BuildWord address) :
    getPNPReg g pnp address =
      let p := place (address - pnpBase g).toNat
      if (if p.upper then pnp.numOfSlaveBindings else g.numOfMasterBindings) ≤ p.number then 0
      else swapEndianess
        (((if p.upper then pnp.mSlaves else pnp.mMasters) p.number).elim 0 fun info =>
          info p.word) := by
  have other : ¬(0xfffffff0 ≤ address ∧ address ≤ 0xfffffff3) := plain
  have base : (g.ioaddr <<< 20 ||| g.cfgaddr <<< 8) &&& (g.iomask <<< 20 ||| g.cfgmask <<< 8) =
      pnpBase g := rfl
  rw [getPNPReg, if_neg other, base]
  generalize address - pnpBase g = addr
  have half : (0x800 ≤ addr) ↔ 0x800 ≤ addr.toNat := BitVec.le_def
  by_cases upper : 0x800 ≤ addr.toNat
  · have moved : (addr - 0x800).toNat = addr.toNat - 0x800 := by
      rw [BitVec.toNat_sub_of_le (half.mpr upper)]
      rfl
    obtain ⟨number, word⟩ := record_place (addr - 0x800)
    have aligned : (addr.toNat - 0x800) / 4 % 8 = addr.toNat / 4 % 8 := by omega
    rw [moved] at number word
    simp only [half, place, upper, if_true, decide_true, number, word, aligned]
    cases pnp.mSlaves ((addr.toNat - 0x800) / 32) with
    | none => rfl
    | some info => rfl
  · obtain ⟨number, word⟩ := record_place addr
    simp only [half, place, upper, if_false, decide_false, number, word,
      Bool.false_eq_true]
    cases pnp.mMasters (addr.toNat / 32) with
    | none => rfl
    | some info => rfl

/-- The record of a device is kept at its bus index, and there is none at an index without a device. -/
theorem mapDevices_spec (devices : List Device) (distinct : (devices.map Device.hindex).Nodup) :
    (∀ d ∈ devices, mapDevices true devices d.hindex = some d.info) ∧
      ∀ n, (∀ d ∈ devices, d.hindex ≠ n) → mapDevices true devices n = none := by
  have others (devices : List Device) (infos : ℕ → Option (ℕ → BitVec 32)) (n : ℕ)
      (apart : ∀ d ∈ devices, d.hindex ≠ n) :
      (devices.foldl (mapDevice true) infos) n = infos n := by
    induction devices generalizing infos with
    | nil => rfl
    | cons d devices ih =>
      obtain ⟨first, rest⟩ := List.forall_mem_cons.mp apart
      rw [List.foldl_cons, ih _ rest, mapDevice, if_pos rfl, Function.update_of_ne first.symm]
  refine ⟨?_, others devices _⟩
  suffices held : ∀ infos : ℕ → Option (ℕ → BitVec 32), ∀ d ∈ devices,
      (devices.foldl (mapDevice true) infos) d.hindex = some d.info from held fun _ => none
  induction devices with
  | nil => exact fun _ d member => absurd member List.not_mem_nil
  | cons d devices ih =>
    intro infos e member
    obtain ⟨new, rest⟩ := List.nodup_cons.mp distinct
    rw [List.foldl_cons]
    rcases List.mem_cons.mp member with rfl | tail
    · have apart : ∀ d ∈ devices, d.hindex ≠ e.hindex := fun d held same =>
        new (same ▸ List.mem_map_of_mem held)
      rw [others devices _ e.hindex apart, mapDevice, if_pos rfl, Function.update_self]
    · exact ih rest _ e tail

theorem swapEndianess_zero : swapEndianess 0 = 0 := by decide

/-- What a register returns about its place in the table: the word of a device that is there and below
the number of the bound ones, and nothing where there is no device. -/
structure TableWord (slaves masters : List Device) (p : Place) (value : BitVec 32) : Prop where
  device : ∀ d ∈ p.devices slaves masters, d.hindex = p.number →
    p.number < (p.devices slaves masters).length → value = swapEndianess (d.info p.word)
  free : (∀ d ∈ p.devices slaves masters, d.hindex ≠ p.number) → value = 0

theorem startOfSimulation_eq (started : startOfSimulation g slaves masters = some (g', pnp)) :
    g' = { g with numOfMasterBindings := masters.length } ∧
      pnp = ⟨slaves.length, mapDevices g.fpnpen slaves, mapDevices g.fpnpen masters⟩ ∧
      (∀ d ∈ slaves, d.hindex < 16) ∧ ∀ d ∈ masters, d.hindex < 16 := by
  rw [startOfSimulation] at started
  split_ifs at started with bound
  obtain ⟨rfl, rfl⟩ := Prod.mk.inj (Option.some.inj started)
  exact ⟨rfl, rfl, bound.2.2.1, bound.2.2.2⟩

theorem tableWord_getPNPReg (started : startOfSimulation g slaves masters = some (g', pnp))
    (enabled : g.fpnpen = true) (distinct : (slaves.map Device.hindex).Nodup)
    (distinct' : (masters.map Device.hindex).Nodup) (plain : ¬ BuildWord address) :
    TableWord slaves masters (place (address - pnpBase g).toNat) (getPNPReg g' pnp address) := by
  obtain ⟨rfl, rfl, -⟩ := startOfSimulation_eq started
  have half (devices : List Device) (distinct : (devices.map Device.hindex).Nodup) (n k : ℕ) :
      (∀ d ∈ devices, d.hindex = n → n < devices.length →
        (if devices.length ≤ n then 0 else
          swapEndianess ((mapDevices true devices n).elim 0 fun info => info k)) =
          swapEndianess (d.info k)) ∧
      ((∀ d ∈ devices, d.hindex ≠ n) → (if devices.length ≤ n then 0 else
        swapEndianess ((mapDevices true devices n).elim 0 fun info => info k)) = 0) := by
    obtain ⟨held, free⟩ := mapDevices_spec devices distinct
    refine ⟨?_, fun none => ?_⟩
    · rintro d member rfl below
      rw [if_neg (Nat.not_le.mpr below), held d member]
      rfl
    · rw [free n none]
      split_ifs
      · rfl
      · exact swapEndianess_zero
  have value : getPNPReg { g with numOfMasterBindings := masters.length }
      ⟨slaves.length, mapDevices g.fpnpen slaves, mapDevices g.fpnpen masters⟩ address =
      _ := getPNPReg_eq plain
  rw [value, enabled]
  change TableWord slaves masters (place (address - pnpBase g).toNat) (
    if (if (place (address - pnpBase g).toNat).upper then slaves.length else masters.length) ≤
        (place (address - pnpBase g).toNat).number then 0
    else swapEndianess (((if (place (address - pnpBase g).toNat).upper then mapDevices true slaves
      else mapDevices true masters) (place (address - pnpBase g).toNat).number).elim 0
        fun info => info (place (address - pnpBase g).toNat).word))
  obtain ⟨upper, n, k⟩ := place (address - pnpBase g).toNat
  cases upper with
  | true => exact ⟨(half slaves distinct n k).1, (half slaves distinct n k).2⟩
  | false => exact ⟨(half masters distinct' n k).1, (half masters distinct' n k).2⟩

/-- The address of a word in the table. -/
def wordAddress (g : Generics) (p : Place) : BitVec 32 :=
  pnpBase g + BitVec.ofNat 32 ((if p.upper then 0x800 else 0) + 32 * p.number + 4 * p.word)

theorem wordAddress_spec (whole : (g.iomask <<< 20 ||| g.cfgmask <<< 8) &&& 0xfff = 0) {p : Place}
    (number : p.number < 16) (word : p.word < 8) :
    (wordAddress g p - pnpBase g).toNat = (if p.upper then 0x800 else 0) + 32 * p.number + 4 * p.word ∧
      place (wordAddress g p - pnpBase g).toNat = p ∧ ¬ BuildWord (wordAddress g p) ∧
      (g.fpnpen = true → isPnp g (wordAddress g p) = true) := by
  have inside : (if p.upper then 0x800 else 0) + 32 * p.number + 4 * p.word < 0xff0 := by
    split_ifs <;> omega
  have pages : pnpBase g &&& 0xfff = 0 := by
    rw [pnpBase, BitVec.and_assoc, whole]
    exact BitVec.and_zero
  have page : (pnpBase g).toNat % 2 ^ 12 = 0 := by
    have low : (pnpBase g &&& 0xfff).toNat = (pnpBase g).toNat % 2 ^ 12 :=
      toNat_and_lowMask (k := 12) (pnpBase g) (by decide)
    rw [← low, pages]
    rfl
  have found : (wordAddress g p - pnpBase g).toNat =
      (if p.upper then 0x800 else 0) + 32 * p.number + 4 * p.word := by
    rw [wordAddress, BitVec.add_comm, BitVec.add_sub_cancel, BitVec.toNat_ofNat]
    exact Nat.mod_eq_of_lt (by omega)
  have low : (BitVec.ofNat 32 ((if p.upper then 0x800 else 0) + 32 * p.number + 4 * p.word)).toNat =
      (if p.upper then 0x800 else 0) + 32 * p.number + 4 * p.word := by
    rw [BitVec.toNat_ofNat]
    exact Nat.mod_eq_of_lt (by omega)
  have value : (wordAddress g p).toNat = (pnpBase g).toNat +
      ((if p.upper then 0x800 else 0) + 32 * p.number + 4 * p.word) := by
    have word := (pnpBase g).isLt
    rw [wordAddress, BitVec.toNat_add, low]
    exact Nat.mod_eq_of_lt (by omega)
  refine ⟨found, ?_, ?_, fun enabled => ?_⟩
  · rw [found]
    obtain ⟨upper, number', word'⟩ := p
    cases upper with
    | true =>
      simp only [place, Place.mk.injEq, if_true, decide_eq_true_eq] at number word ⊢
      rw [if_pos (by omega)]
      omega
    | false =>
      simp only [place, Place.mk.injEq, Bool.false_eq_true, if_false, decide_eq_false_iff_not]
        at number word ⊢
      rw [if_neg (by omega)]
      omega
  · rintro ⟨above, -⟩
    have high : 0xfffffff0 ≤ (wordAddress g p).toNat := BitVec.le_def.mp above
    have below := (wordAddress g p).isLt
    omega
  · have parts : wordAddress g p = pnpBase g |||
        BitVec.ofNat 32 ((if p.upper then 0x800 else 0) + 32 * p.number + 4 * p.word) := by
      refine BitVec.eq_of_toNat_eq ?_
      rw [value, toNat_or_of_aligned (s := 12) (q := (pnpBase g).toNat / 2 ^ 12) (by omega) (by omega),
        low]
    have small : BitVec.ofNat 32 ((if p.upper then 0x800 else 0) + 32 * p.number + 4 * p.word) &&&
        0xfff = BitVec.ofNat 32 ((if p.upper then 0x800 else 0) + 32 * p.number + 4 * p.word) := by
      refine BitVec.eq_of_toNat_eq ?_
      have masked := toNat_and_lowMask (k := 12)
        (BitVec.ofNat 32 ((if p.upper then 0x800 else 0) + 32 * p.number + 4 * p.word)) (by decide)
      rw [low] at masked
      rw [low]
      exact masked.trans (Nat.mod_eq_of_lt (by omega))
    have apart : BitVec.ofNat 32 ((if p.upper then 0x800 else 0) + 32 * p.number + 4 * p.word) &&&
        (g.iomask <<< 20 ||| g.cfgmask <<< 8) = 0#32 := by
      rw [← small, BitVec.and_assoc, BitVec.and_comm 0xfff, whole]
      exact BitVec.and_zero
    have same : wordAddress g p &&& (g.iomask <<< 20 ||| g.cfgmask <<< 8) =
        (g.ioaddr <<< 20 ||| g.cfgaddr <<< 8) &&& (g.iomask <<< 20 ||| g.cfgmask <<< 8) := by
      rw [parts, BitVec.and_comm, BitVec.and_or_distrib_left,
        BitVec.and_comm _ (BitVec.ofNat 32 _), apart, BitVec.or_zero, pnpBase, BitVec.and_comm,
        BitVec.and_assoc, BitVec.and_self]
    rw [isPnp, enabled, Bool.true_and, beq_iff_eq]
    exact (xor_and_eq_zero_iff _ _ _).mpr same

/-- With plug and play, every address of the configuration area but the build word reads the table of
the devices, as far as the bindings reach, and a scan of the table finds them. -/
theorem pnp_table (started : startOfSimulation g slaves masters = some (g', pnp))
    (enabled : g.fpnpen = true) (distinct : (slaves.map Device.hindex).Nodup)
    (distinct' : (masters.map Device.hindex).Nodup) :
    (∀ address, isPnp g' address = true → if BuildWord address then
      getPNPReg g' pnp address = 0x30100000
      else TableWord slaves masters (place (address - pnpBase g').toNat) (getPNPReg g' pnp address)) ∧
    ((g.iomask <<< 20 ||| g.cfgmask <<< 8) &&& 0xfff = 0 → ∀ (upper : Bool),
      ∀ d ∈ if upper then slaves else masters,
        d.hindex < (if upper then slaves else masters).length → ∀ k < 8,
        ∃ address, isPnp g' address = true ∧ getPNPReg g' pnp address = swapEndianess (d.info k)) := by
  obtain ⟨same, -, bound, bound'⟩ := startOfSimulation_eq started
  have area (address : BitVec 32) : isPnp g' address = isPnp g address := by
    rw [same]
    rfl
  have base : pnpBase g' = pnpBase g := by
    rw [same]
    rfl
  constructor
  · intro address _
    split_ifs with build
    · exact if_pos build
    · rw [base]
      exact tableWord_getPNPReg started enabled distinct distinct' build
  · intro whole upper d member below k inside
    have number : d.hindex < 16 := by
      cases upper with
      | true => exact bound d member
      | false => exact bound' d member
    obtain ⟨-, there, plain, inArea⟩ := wordAddress_spec (p := ⟨upper, d.hindex, k⟩) whole number inside
    have reads := tableWord_getPNPReg started enabled distinct distinct' plain
    rw [there] at reads
    refine ⟨wordAddress g ⟨upper, d.hindex, k⟩, ?_, reads.device d member rfl below⟩
    rw [area]
    exact inArea enabled

/-- The generics of an area at the top of the address space. -/
def topArea : Generics := ⟨true, 0xfff, 0xfff, 0xff0, 0xff0, false, 0⟩

/-- Two slaves, the second of which has the lower index. -/
def swappedSlaves : List Device := [⟨1, fun k => BitVec.ofNat 32 k⟩, ⟨0, fun _ => 7⟩]

theorem pnp_table_swapped : ∃ g' pnp, startOfSimulation topArea swappedSlaves [] = some (g', pnp) ∧
    ∃ address, isPnp g' address = true ∧ getPNPReg g' pnp address = swapEndianess 5 :=
  ⟨_, _, rfl, (pnp_table (g := topArea) rfl rfl (by decide : (swappedSlaves.map Device.hindex).Nodup)
    (by decide : (([] : List Device).map Device.hindex).Nodup)).2 (by decide) true
    ⟨1, fun k => BitVec.ofNat 32 k⟩ (List.mem_cons_self ..) (by decide) 5 (by decide)⟩

/-- The build word is where the table has the record of a device with index 63, which there is not. -/
theorem pnp_build_word : ¬ ∀ (g g' : Generics) (pnp : Pnp) (slaves masters : List Device),
    startOfSimulation g slaves masters = some (g', pnp) → g.fpnpen = true →
    (slaves.map Device.hindex).Nodup → (masters.map Device.hindex).Nodup →
    ∀ address, isPnp g' address = true →
      let p := place (address - pnpBase g').toNat
      (∀ d ∈ p.devices slaves masters, d.hindex = p.number →
        getPNPReg g' pnp address = swapEndianess (d.info p.word)) ∧
      ((∀ d ∈ p.devices slaves masters, d.hindex ≠ p.number) → getPNPReg g' pnp address = 0) := by
  intro claim
  have none := (claim topArea _ _ swappedSlaves [] rfl rfl (by decide) (by decide) 0xfffffff0
    (by decide)).2 (by decide)
  exact absurd none (by decide)

end Socrocket.Bus.AHBCtrl
